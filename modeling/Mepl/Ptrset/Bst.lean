import Mathlib.Algebra.Order.Ring.Nat
import Mathlib.Order.Fin.Basic
import Mepl.Base.RedBlack
import Mepl.C.Machine

namespace Mepl
open Base

/-- ptr_t, one chunk of an address -/
abbrev PtrT := Fin (2 ^ 16)

instance neZeroPtrT : NeZero (2 ^ 16) := ⟨by decide⟩

def ADDR_LEN : Nat := 4

/-- The chunks of an address. -/
abbrev Addr := { cs : List PtrT // cs.length = ADDR_LEN }

/-- A call on a set of addresses. -/
inductive SetOp where
  | add (a : Addr)
  | has (a : Addr)

def SetOp.addr : SetOp → Addr
  | .add a => a
  | .has a => a

/-- What a set of addresses answers, with the ones added so far. -/
def answers : List Addr → List SetOp → List Bool
  | _, [] => []
  | added, .add a :: ops => answers (added ++ [a]) ops
  | added, .has a :: ops => decide (a ∈ added) :: answers added ops

/-- A pointer: NULL, or the place of an object in the list of its kind. -/
abbrev Ptr := Option Nat

structure Kid where
  edge : Ptr
  parent : Ptr
  left : Ptr
  right : Ptr
  v : PtrT
  color : Color
deriving DecidableEq, Repr

structure Node where
  kids : Ptr
deriving DecidableEq, Repr

/-- The set, with every node and kid allocated for it. -/
structure BstSet where
  psBytes : Nat
  root : Ptr
  nodes : List Node
  kids : List Kid
deriving DecidableEq, Repr

def sizeofBstSet : Nat := 40

def sizeofNode : Nat := 8

def bstSetNew : BstSet where
  psBytes := sizeofBstSet
  root := none
  nodes := []
  kids := []

def Kid.child (k : Kid) : Dir → Ptr
  | .left => k.left
  | .right => k.right

def Kid.setChild (k : Kid) : Dir → Ptr → Kid
  | .left, p => { k with left := p }
  | .right, p => { k with right := p }

def Kid.setParent (k : Kid) (p : Ptr) : Kid := { k with parent := p }

def Kid.setColor (k : Kid) (c : Color) : Kid := { k with color := c }

def Kid.setEdge (k : Kid) (np : Ptr) : Kid := { k with edge := np }

namespace Kid
variable (k : Kid) (d : Dir) (p : Ptr) (c : Color)

@[simp] theorem set_child_child : (k.setChild d p).child d = p := by
  cases d <;> rfl

@[simp] theorem set_child_child_other : (k.setChild d p).child d.other = k.child d.other := by
  cases d <;> rfl

@[simp] theorem set_other_child : (k.setChild d.other p).child d = k.child d := by
  cases d <;> rfl

@[simp] theorem set_child_parent : (k.setChild d p).parent = k.parent := by
  cases d <;> rfl

@[simp] theorem set_child_v : (k.setChild d p).v = k.v := by
  cases d <;> rfl

@[simp] theorem set_child_color : (k.setChild d p).color = k.color := by
  cases d <;> rfl

@[simp] theorem set_child_edge : (k.setChild d p).edge = k.edge := by
  cases d <;> rfl

@[simp] theorem set_parent_child : (k.setParent p).child d = k.child d := by
  cases d <;> rfl

@[simp] theorem set_parent_parent : (k.setParent p).parent = p := rfl

@[simp] theorem set_parent_v : (k.setParent p).v = k.v := rfl

@[simp] theorem set_parent_color : (k.setParent p).color = k.color := rfl

@[simp] theorem set_parent_edge : (k.setParent p).edge = k.edge := rfl

@[simp] theorem set_color_child : (k.setColor c).child d = k.child d := by
  cases d <;> rfl

@[simp] theorem set_color_parent : (k.setColor c).parent = k.parent := rfl

@[simp] theorem set_color_v : (k.setColor c).v = k.v := rfl

@[simp] theorem set_color_color : (k.setColor c).color = c := rfl

@[simp] theorem set_color_edge : (k.setColor c).edge = k.edge := rfl

@[simp] theorem set_edge_child : (k.setEdge p).child d = k.child d := by
  cases d <;> rfl

@[simp] theorem set_edge_parent : (k.setEdge p).parent = k.parent := rfl

@[simp] theorem set_edge_v : (k.setEdge p).v = k.v := rfl

@[simp] theorem set_edge_color : (k.setEdge p).color = k.color := rfl

@[simp] theorem set_edge_edge : (k.setEdge p).edge = p := rfl

end Kid

/-- `*kp` -/
def deref (kids : List Kid) : Ptr → Res Kid
  | none => .error .fault
  | some k => load kids k

/-- An assignment to a field of `*kp`. -/
def assign (kids : List Kid) (kp : Ptr) (f : Kid → Kid) : Res (List Kid) :=
  match kp with
  | none => .error .fault
  | some k => do store kids k (f (← load kids k))

/-- kid_rotate_left and kid_rotate_right: they differ in the sides only. The
kids, and the root of their tree. -/
def kidRotate (d : Dir) (kids : List Kid) (root x : Ptr) : Res (List Kid × Ptr) := do
  let y := (← deref kids x).child d.other
  let inner := (← deref kids y).child d
  let kids ← assign kids x (fun k => k.setChild d.other inner)
  let inner := (← deref kids y).child d
  let kids ← (if inner.isSome then assign kids inner (fun k => k.setParent x)
    else pure kids)
  let parent := (← deref kids x).parent
  let kids ← assign kids y (fun k => k.setParent parent)
  let (kids, root) ← (if parent.isNone then pure (kids, y)
    else do
      let side := if x = (← deref kids parent).child d then d else d.other
      pure (← assign kids parent (fun k => k.setChild side y), root))
  let kids ← assign kids y (fun k => k.setChild d x)
  let kids ← assign kids x (fun k => k.setParent y)
  pure (kids, root)

def kidRotateLeft (kids : List Kid) (root x : Ptr) : Res (List Kid × Ptr) :=
  kidRotate .left kids root x

def kidRotateRight (kids : List Kid) (root x : Ptr) : Res (List Kid × Ptr) :=
  kidRotate .right kids root x

def setColor (kids : List Kid) (kp : Ptr) (c : Color) : Res (List Kid) :=
  assign kids kp (fun k => k.setColor c)

/-- One of the two arms of the loop of kid_fix, where parent is the child of gp
on the side d. The arms differ in the sides only; parent and gp are not read
again after the first rotation. -/
def kidFixArm (d : Dir) (kids : List Kid) (root p parent gp : Ptr) :
    Res (List Kid × Ptr × Ptr) := do
  let uncle := (← deref kids gp).child d.other
  let red ← (if uncle.isSome then do pure ((← deref kids uncle).color == .red) else pure false)
  if red then
    let kids ← setColor kids parent .black
    let kids ← setColor kids uncle .black
    let kids ← setColor kids gp .red
    pure (kids, root, gp)
  else
    let inner := p == (← deref kids parent).child d.other
    let (kids, root, p) ← (if inner then do
        let (kids, root) ← kidRotate d kids root parent
        pure (kids, root, parent)
      else pure (kids, root, p))
    let kids ← setColor kids parent .black
    let kids ← setColor kids gp .red
    let (kids, root) ← kidRotate d.other kids root gp
    pure (kids, root, p)

/-- The loop of kid_fix. -/
def kidFixLoop : Nat → List Kid → Ptr → Ptr → Res (List Kid × Ptr)
  | 0, _, _, _ => .error .fuel
  | n + 1, kids, root, p => do
    if p = root then pure (kids, root)
    else
      let parent := (← deref kids p).parent
      if (← deref kids parent).color = .red then
        let gp := (← deref kids parent).parent
        let d := if parent = (← deref kids gp).left then Dir.left else Dir.right
        let (kids, root, p) ← kidFixArm d kids root p parent gp
        kidFixLoop n kids root p
      else pure (kids, root)

def kidFix (fuel : Nat) (kids : List Kid) (root p : Ptr) : Res (List Kid × Ptr) := do
  let (kids, root) ← kidFixLoop fuel kids root p
  let kids ← setColor kids root .black
  pure (kids, root)

/-- The loop of kid_find. -/
def kidFindLoop : Nat → List Kid → Ptr → PtrT → Res Ptr
  | 0, _, _, _ => .error .fuel
  | _ + 1, _, none, _ => pure none
  | n + 1, kids, some k, chunk => do
    let kid ← load kids k
    if chunk < kid.v then kidFindLoop n kids kid.left chunk
    else if kid.v < chunk then kidFindLoop n kids kid.right chunk
    else pure (some k)

def kidFind (fuel : Nat) (s : BstSet) (np : Nat) (chunk : PtrT) : Res Ptr := do
  let node ← load s.nodes np
  kidFindLoop fuel s.kids node.kids chunk

/-- do_bst_set_has -/
def doBstSetHas (fuel : Nat) (s : BstSet) : Ptr → List PtrT → Res Bool
  | _, [] => pure true
  | none, _ :: _ => pure false
  | some np, c :: cs => do
    match ← kidFind fuel s np c with
    | none => pure false
    | some k => do
      let kid ← load s.kids k
      doBstSetHas fuel s kid.edge cs

def bstSetHas (fuel : Nat) (s : BstSet) (a : Addr) : Res Bool :=
  doBstSetHas fuel s s.root a.1

/-- What a `struct kid **` points to. -/
inductive KidSlot where
  | kids (np : Nat)
  | child (d : Dir) (k : Nat)
deriving DecidableEq, Repr

def BstSet.readKid (s : BstSet) : KidSlot → Res Ptr
  | .kids np => do pure (← load s.nodes np).kids
  | .child d k => do pure ((← load s.kids k).child d)

def BstSet.writeKid (s : BstSet) (kpp : KidSlot) (kp : Ptr) : Res BstSet :=
  match kpp with
  | .kids np => do
    let _ ← load s.nodes np
    let nodes ← store s.nodes np ⟨kp⟩
    pure { s with nodes := nodes }
  | .child d k => do
    let kids ← assign s.kids (some k) (fun kid => kid.setChild d kp)
    pure { s with kids := kids }

/-- The loop of kid_get_or_set: the kid found, or the slot for a new one with
the kid it belongs to. -/
def kidSlotLoop : Nat → BstSet → KidSlot → Ptr → PtrT → Res (Nat ⊕ KidSlot × Ptr)
  | 0, _, _, _, _ => .error .fuel
  | n + 1, s, kpp, kp, chunk => do
    match ← s.readKid kpp with
    | none => pure (.inr (kpp, kp))
    | some k => do
      let kid ← load s.kids k
      if chunk < kid.v then kidSlotLoop n s (.child .left k) (some k) chunk
      else if kid.v < chunk then kidSlotLoop n s (.child .right k) (some k) chunk
      else pure (.inl k)

/-- zalloc leaves color 0, which is RED. -/
def kidNew (parent : Ptr) (v : PtrT) : Kid where
  edge := none
  parent := parent
  left := none
  right := none
  v := v
  color := .red

def kidGetOrSet (fuel : Nat) (s : BstSet) (np : Nat) (chunk : PtrT) : Res (BstSet × Nat) := do
  match ← kidSlotLoop fuel s (.kids np) none chunk with
  | .inl k => pure (s, k)
  | .inr (kpp, kp) => do
    let newk := s.kids.length
    let s := { s with kids := s.kids ++ [kidNew kp chunk] }
    let s ← s.writeKid kpp (some newk)
    let root ← s.readKid (.kids np)
    let (kids, root) ← kidFix fuel s.kids root (some newk)
    let s ← BstSet.writeKid { s with kids := kids } (.kids np) root
    pure (s, newk)

/-- What a `struct node **` points to. -/
inductive NodeSlot where
  | root
  | edge (k : Nat)
deriving DecidableEq, Repr

def BstSet.readNode (s : BstSet) : NodeSlot → Res Ptr
  | .root => pure s.root
  | .edge k => do pure (← load s.kids k).edge

def BstSet.writeNode (s : BstSet) (npp : NodeSlot) (np : Ptr) : Res BstSet :=
  match npp with
  | .root => pure { s with root := np }
  | .edge k => do
    let kids ← assign s.kids (some k) (fun kid => kid.setEdge np)
    pure { s with kids := kids }

def nodeNew (s : BstSet) : Nat × BstSet :=
  (s.nodes.length, { s with nodes := s.nodes ++ [⟨none⟩], psBytes := s.psBytes + sizeofNode })

/-- `*npp = node_new(bp)` -/
def BstSet.setNew (s : BstSet) (npp : NodeSlot) : Res BstSet :=
  let (np, s) := nodeNew s
  s.writeNode npp (some np)

/-- do_bst_set_add; the node that ends an address is always a new one. -/
def doBstSetAdd (fuel : Nat) : BstSet → NodeSlot → List PtrT → Res BstSet
  | s, npp, [] => s.setNew npp
  | s, npp, c :: cs => do
    let s ← (if (← s.readNode npp).isNone then s.setNew npp else pure s)
    match ← s.readNode npp with
    | none => .error .fault
    | some np => do
      let (s, k) ← kidGetOrSet fuel s np c
      doBstSetAdd fuel s (.edge k) cs

def bstSetAdd (fuel : Nat) (s : BstSet) (a : Addr) : Res BstSet :=
  doBstSetAdd fuel s .root a.1

/-- A run: bst_set_new, then the adds. -/
def bstSetRun (fuel : Nat) (adds : List Addr) : Res BstSet :=
  adds.foldlM (bstSetAdd fuel) bstSetNew

end Mepl
