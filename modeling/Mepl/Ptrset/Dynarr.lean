import Mepl.Ptrset.Bst

namespace Mepl

structure DynarrSet.Kid where
  edge : Ptr
  v : PtrT
deriving DecidableEq, Repr

structure DynarrSet.Node where
  kids : Ptr
  len : Nat
  cap : Nat
deriving DecidableEq, Repr

/-- The set, with every node and every array of kids allocated for it; an array
that realloc() has moved is none. -/
structure DynarrSet where
  psBytes : Nat
  root : Ptr
  nodes : List DynarrSet.Node
  arrays : List (Option (List DynarrSet.Kid))
deriving DecidableEq, Repr

namespace DynarrSet

def sizeofDynarrSet : Nat := 40

def sizeofNode : Nat := 24

def sizeofKid : Nat := 16

def dynarrSetNew : DynarrSet where
  psBytes := sizeofDynarrSet
  root := none
  nodes := []
  arrays := []

/-- The array at kids. -/
def array (s : DynarrSet) (kids : Nat) : Res (List Kid) := do
  match ← load s.arrays kids with
  | none => .error .fault
  | some a => pure a

/-- The loop of kid_find, from kids + i on: the index it ends at, which is len
when there is no kid for the chunk. -/
def kidFindLoop (a : List Kid) (chunk : PtrT) : Nat → Nat → Res Nat
  | 0, i => pure i
  | n + 1, i => do
    let kid ← load a i
    if kid.v = chunk then pure i else kidFindLoop a chunk n (i + 1)

/-- kid_find: a place in an array, or NULL. A node without an array has no
kids, and NULL + 0 is NULL. -/
def kidFind (s : DynarrSet) (np : Nat) (chunk : PtrT) : Res (Option (Nat × Nat)) := do
  let node ← load s.nodes np
  match node.kids with
  | none => pure none
  | some kids => do
    let a ← s.array kids
    let i ← kidFindLoop a chunk node.len 0
    pure (some (kids, i))

/-- do_dynarr_set_has -/
def doDynarrSetHas (s : DynarrSet) : Ptr → List PtrT → Res Bool
  | _, [] => pure true
  | none, _ :: _ => pure false
  | some np, c :: cs => do
    match ← kidFind s np c with
    | none => pure false
    | some (kids, i) => do
      let a ← s.array kids
      let kid ← load a i
      doDynarrSetHas s kid.edge cs

def dynarrSetHas (s : DynarrSet) (a : Addr) : Res Bool := doDynarrSetHas s s.root a.1

/-- node_grow; realloc() may move the array, so the old one is gone. -/
def nodeGrow (s : DynarrSet) (np : Nat) : Res DynarrSet := do
  let node ← load s.nodes np
  let cap := if node.cap * 2 = 0 then 1 else node.cap * 2
  let a ← (match node.kids with
    | none => pure []
    | some kids => s.array kids)
  let arrays ← (match node.kids with
    | none => pure s.arrays
    | some kids => store s.arrays kids none)
  let a := a ++ List.replicate (cap - node.cap) ⟨none, 0⟩
  let nodes ← store s.nodes np { node with kids := some arrays.length, cap := cap }
  pure { s with
    psBytes := s.psBytes + sizeofKid * (cap - node.cap)
    nodes := nodes
    arrays := arrays ++ [some a] }

/-- node_push -/
def nodePush (s : DynarrSet) (np : Nat) (chunk : PtrT) : Res DynarrSet := do
  let node ← load s.nodes np
  let s ← (if node.len = node.cap then nodeGrow s np else pure s)
  let node ← load s.nodes np
  match node.kids with
  | none => .error .fault
  | some kids => do
    let a ← s.array kids
    let kid ← load a node.len
    let a ← store a node.len { kid with v := chunk }
    let arrays ← store s.arrays kids (some a)
    let nodes ← store s.nodes np { node with len := node.len + 1 }
    pure { s with nodes := nodes, arrays := arrays }

/-- What a `struct node **` points to: the root, or the edge of a kid in an
array. -/
inductive NodeSlot where
  | root
  | edge (kids i : Nat)
deriving DecidableEq, Repr

def readNode (s : DynarrSet) : NodeSlot → Res Ptr
  | .root => pure s.root
  | .edge kids i => do
    let a ← s.array kids
    let kid ← load a i
    pure kid.edge

def writeNode (s : DynarrSet) (npp : NodeSlot) (np : Ptr) : Res DynarrSet :=
  match npp with
  | .root => pure { s with root := np }
  | .edge kids i => do
    let a ← s.array kids
    let kid ← load a i
    let a ← store a i { kid with edge := np }
    let arrays ← store s.arrays kids (some a)
    pure { s with arrays := arrays }

/-- `*npp = dynarr_set_node_new(dp)` -/
def setNew (s : DynarrSet) (npp : NodeSlot) : Res DynarrSet :=
  let np := s.nodes.length
  let node : Node := ⟨none, 0, 0⟩
  let s := { s with nodes := s.nodes ++ [node], psBytes := s.psBytes + sizeofNode }
  s.writeNode npp (some np)

/-- do_dynarr_set_add; the node that ends an address is always a new one. -/
def doDynarrSetAdd : DynarrSet → NodeSlot → List PtrT → Res DynarrSet
  | s, npp, [] => s.setNew npp
  | s, npp, c :: cs => do
    let s ← (if (← s.readNode npp).isNone then s.setNew npp else pure s)
    match ← s.readNode npp with
    | none => .error .fault
    | some np => do
      match ← kidFind s np c with
      | some (kids, i) => doDynarrSetAdd s (.edge kids i) cs
      | none => do
        let s ← nodePush s np c
        let node ← load s.nodes np
        match node.kids with
        | none => .error .fault
        | some kids => doDynarrSetAdd s (.edge kids (node.len - 1)) cs

def dynarrSetAdd (s : DynarrSet) (a : Addr) : Res DynarrSet := doDynarrSetAdd s .root a.1

/-- The calls of a run, with the answers of dynarr_set_has. -/
def dynarrSetCalls : DynarrSet → List SetOp → Res (DynarrSet × List Bool)
  | s, [] => pure (s, [])
  | s, .add a :: ops => do
    let s ← dynarrSetAdd s a
    dynarrSetCalls s ops
  | s, .has a :: ops => do
    let b ← dynarrSetHas s a
    let (s, bs) ← dynarrSetCalls s ops
    pure (s, b :: bs)

/-- A run: dynarr_set_new, then the calls. -/
def dynarrSetRun (ops : List SetOp) : Res (DynarrSet × List Bool) := dynarrSetCalls dynarrSetNew ops

end DynarrSet

end Mepl
