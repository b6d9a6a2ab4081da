import Mepl.Ptrset.Bst

namespace Mepl

structure ListSet.Kid where
  edge : Ptr
  next : Ptr
  v : PtrT
deriving DecidableEq, Repr

structure ListSet.Node where
  kids : Ptr
deriving DecidableEq, Repr

/-- The set, with every node and kid allocated for it. -/
structure ListSet where
  psBytes : Nat
  root : Ptr
  nodes : List ListSet.Node
  kids : List ListSet.Kid
deriving DecidableEq, Repr

namespace ListSet

def sizeofListSet : Nat := 40

def sizeofNode : Nat := 8

def sizeofKid : Nat := 24

def listSetNew : ListSet where
  psBytes := sizeofListSet
  root := none
  nodes := []
  kids := []

/-- The loop of kid_find. -/
def kidFindLoop (kids : List Kid) (chunk : PtrT) : Nat → Ptr → Res Ptr
  | 0, _ => .error .fuel
  | _ + 1, none => pure none
  | n + 1, some k => do
    let kid ← load kids k
    if kid.v = chunk then pure (some k) else kidFindLoop kids chunk n kid.next

/-- kid_find. A list longer than all the kids would never end. -/
def kidFind (s : ListSet) (np : Nat) (chunk : PtrT) : Res Ptr := do
  let node ← load s.nodes np
  kidFindLoop s.kids chunk (s.kids.length + 1) node.kids

/-- do_list_set_has -/
def doListSetHas (s : ListSet) : Ptr → List PtrT → Res Bool
  | _, [] => pure true
  | none, _ :: _ => pure false
  | some np, c :: cs => do
    match ← kidFind s np c with
    | none => pure false
    | some k => do
      let kid ← load s.kids k
      doListSetHas s kid.edge cs

def listSetHas (s : ListSet) (a : Addr) : Res Bool := doListSetHas s s.root a.1

/-- What a `struct kid **` points to. -/
inductive KidSlot where
  | kids (np : Nat)
  | next (k : Nat)
deriving DecidableEq, Repr

def readKid (s : ListSet) : KidSlot → Res Ptr
  | .kids np => do pure (← load s.nodes np).kids
  | .next k => do pure (← load s.kids k).next

def writeKid (s : ListSet) (kpp : KidSlot) (kp : Ptr) : Res ListSet :=
  match kpp with
  | .kids np => do
    let _ ← load s.nodes np
    let nodes ← store s.nodes np ⟨kp⟩
    pure { s with nodes := nodes }
  | .next k => do
    let kid ← load s.kids k
    let kids ← store s.kids k { kid with next := kp }
    pure { s with kids := kids }

/-- The loop of kid_get_or_set: the kid found, or the slot for a new one. -/
def kidSlotLoop (s : ListSet) (chunk : PtrT) : Nat → KidSlot → Res (Nat ⊕ KidSlot)
  | 0, _ => .error .fuel
  | n + 1, kpp => do
    match ← s.readKid kpp with
    | none => pure (.inr kpp)
    | some k => do
      let kid ← load s.kids k
      if kid.v = chunk then pure (.inl k)
      else if chunk < kid.v then pure (.inr kpp)
      else kidSlotLoop s chunk n (.next k)

def kidGetOrSet (s : ListSet) (np : Nat) (chunk : PtrT) : Res (ListSet × Nat) := do
  match ← kidSlotLoop s chunk (s.kids.length + 1) (.kids np) with
  | .inl k => pure (s, k)
  | .inr kpp => do
    let next ← s.readKid kpp
    let kp := s.kids.length
    let kid : Kid := ⟨none, next, chunk⟩
    let s ← writeKid { s with kids := s.kids ++ [kid] } kpp (some kp)
    pure ({ s with psBytes := s.psBytes + sizeofKid }, kp)

/-- What a `struct node **` points to. -/
inductive NodeSlot where
  | root
  | edge (k : Nat)
deriving DecidableEq, Repr

def readNode (s : ListSet) : NodeSlot → Res Ptr
  | .root => pure s.root
  | .edge k => do pure (← load s.kids k).edge

def writeNode (s : ListSet) (npp : NodeSlot) (np : Ptr) : Res ListSet :=
  match npp with
  | .root => pure { s with root := np }
  | .edge k => do
    let kid ← load s.kids k
    let kids ← store s.kids k { kid with edge := np }
    pure { s with kids := kids }

/-- `*npp = node_new(lp)` -/
def setNew (s : ListSet) (npp : NodeSlot) : Res ListSet :=
  let np := s.nodes.length
  let node : Node := ⟨none⟩
  let s := { s with nodes := s.nodes ++ [node], psBytes := s.psBytes + sizeofNode }
  s.writeNode npp (some np)

/-- do_list_set_add; the node that ends an address is always a new one. -/
def doListSetAdd : ListSet → NodeSlot → List PtrT → Res ListSet
  | s, npp, [] => s.setNew npp
  | s, npp, c :: cs => do
    let s ← (if (← s.readNode npp).isNone then s.setNew npp else pure s)
    match ← s.readNode npp with
    | none => .error .fault
    | some np => do
      let (s, k) ← kidGetOrSet s np c
      doListSetAdd s (.edge k) cs

def listSetAdd (s : ListSet) (a : Addr) : Res ListSet := doListSetAdd s .root a.1

/-- The calls of a run, with the answers of list_set_has. -/
def listSetCalls : ListSet → List SetOp → Res (ListSet × List Bool)
  | s, [] => pure (s, [])
  | s, .add a :: ops => do
    let s ← listSetAdd s a
    listSetCalls s ops
  | s, .has a :: ops => do
    let b ← listSetHas s a
    let (s, bs) ← listSetCalls s ops
    pure (s, b :: bs)

/-- A run: list_set_new, then the calls. -/
def listSetRun (ops : List SetOp) : Res (ListSet × List Bool) := listSetCalls listSetNew ops

end ListSet

end Mepl
