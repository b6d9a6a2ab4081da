import Mathlib.Logic.Basic
import Mepl.Alloc.Bitset
import Mepl.Base.Dlist

namespace Mepl
open Base

/-- A node, but for fn_list, which is among the links. -/
structure DbQueryNode where
  fnFree : Bitset
  fnCount : Nat
deriving DecidableEq, Repr

/-- &fn_pool[idx] of a node. -/
structure PoolPtr where
  node : Nat
  idx : Nat
deriving DecidableEq, Repr

structure DbQueryNodePtr where
  pOwner : Nat
  pPtr : PoolPtr
deriving DecidableEq, Repr

/-- A struct list *: the head, or fn_list of a node. -/
inductive FreeLink where
  | freelist
  | fnList (node : Nat)
deriving DecidableEq, Repr

structure DbQueryNodeRing where
  rWr : Nat
  rRd : Nat
  rLen : Nat
  rBuf : List (Option Nat)
deriving DecidableEq, Repr

/-- The nodes are named in the order of their malloc(); none is a node freed
again, or not written yet. -/
structure Freelist where
  nodes : List (Option DbQueryNode)
  links : Links FreeLink
  ring : DbQueryNodeRing

def Freelist.node (fl : Freelist) (fnp : Nat) : Res DbQueryNode :=
  match fl.nodes[fnp]? with
  | some (some np) => pure np
  | _ => .error .fault

def Freelist.setNode (fl : Freelist) (fnp : Nat) (np : DbQueryNode) : Freelist :=
  { fl with nodes := fl.nodes.set fnp (some np) }

def ringInc (p size : Nat) : Nat := (p + 1) &&& (size - 1)

def dbQueryNodeRingFull (SIZE : Nat) (rp : DbQueryNodeRing) : Bool := rp.rLen == SIZE

def dbQueryNodeRingEmpty (rp : DbQueryNodeRing) : Bool := rp.rLen == 0

def dbQueryNodeRingPut (SIZE : Nat) (rp : DbQueryNodeRing) (v : Nat) : Res DbQueryNodeRing := do
  let rBuf ← store rp.rBuf rp.rWr (some v)
  pure { rp with rBuf, rWr := ringInc rp.rWr SIZE }

def dbQueryNodeRingGet (SIZE : Nat) (rp : DbQueryNodeRing) :
    Res (Option Nat × DbQueryNodeRing) := do
  let tmp ← load rp.rBuf rp.rRd
  pure (tmp, { rp with rRd := ringInc rp.rRd SIZE, rLen := (rp.rLen + 2 ^ 64 - 1) % 2 ^ 64 })

section
variable (POOL_SIZE : BitsetSize) (HOLD_OFF_CACHE_SIZE : Nat)

def dbQueryNodeInit (fl : Freelist) (fnp : Nat) : Freelist :=
  let fl := fl.setNode fnp { fnFree := bitsetInit POOL_SIZE, fnCount := POOL_SIZE.size }
  { fl with links := fl.links.init (.fnList fnp) }

def dbQueryNodeNew (fl : Freelist) : Nat × Freelist :=
  let fnp := fl.nodes.length
  (fnp, dbQueryNodeInit POOL_SIZE { fl with nodes := fl.nodes ++ [none] } fnp)

/-- The difference with fn_pool has no meaning for a pointer into another pool. -/
def dbQueryNodePut (fl : Freelist) (fnp : Nat) (ptr : PoolPtr) : Res Freelist := do
  let np ← fl.node fnp
  if ptr.node = fnp then do
    let fnFree ← bitsetClear np.fnFree ptr.idx
    pure (fl.setNode fnp { np with fnFree })
  else .error .fault

def dbQueryNodeGet (fl : Freelist) (fnp : Nat) : Res (Freelist × DbQueryNodePtr) := do
  let np ← fl.node fnp
  let (idx, fnFree) ← bitsetFirstZero POOL_SIZE np.fnFree
  let fnFree ← bitsetSet fnFree idx
  pure (fl.setNode fnp { fnFree, fnCount := sizeDec np.fnCount },
    { pOwner := fnp, pPtr := { node := fnp, idx } })

def dbQueryNodePtrFree (fl : Freelist) (p : DbQueryNodePtr) : Res Freelist :=
  dbQueryNodePut fl p.pOwner p.pPtr

/-- What the search of freelist_get stops at; STRUCT_OF of the head is no node. -/
def freelistCount (fl : Freelist) : FreeLink → Res Bool
  | .freelist => .error .fault
  | .fnList fnp => do
    let np ← fl.node fnp
    pure (np.fnCount != 0)

def freelistGet (fl : Freelist) : Res (Freelist × DbQueryNodePtr) := do
  let p ← fl.links.search .freelist (freelistCount fl) .fuel (fl.nodes.length + 1)
    (fl.links.next .freelist)
  let (fnp, fl) ← (match p with
    | .fnList fnp => pure (fnp, fl)
    | .freelist =>
      if !dbQueryNodeRingEmpty fl.ring then do
        let (fnp, ring) ← dbQueryNodeRingGet HOLD_OFF_CACHE_SIZE fl.ring
        match fnp with
        | none => .error .fault
        | some fnp => pure (fnp, dbQueryNodeInit POOL_SIZE { fl with ring } fnp)
      else pure (dbQueryNodeNew POOL_SIZE fl))
  let p := FreeLink.fnList fnp
  let fl := { fl with links := (fl.links.rm p).addAfter .freelist p }
  dbQueryNodeGet POOL_SIZE fl fnp

def freelistPut (fl : Freelist) (p : DbQueryNodePtr) : Res Freelist := do
  let owner := p.pOwner
  let fl ← dbQueryNodePtrFree fl p
  let np ← fl.node owner
  if np.fnCount ≠ POOL_SIZE.size then pure fl
  else do
    let ring ← dbQueryNodeRingPut HOLD_OFF_CACHE_SIZE fl.ring owner
    if dbQueryNodeRingFull HOLD_OFF_CACHE_SIZE ring then do
      let (fnp, ring) ← dbQueryNodeRingGet HOLD_OFF_CACHE_SIZE ring
      match fnp with
      | none => pure { fl with ring }
      | some fnp => pure { fl with ring, nodes := fl.nodes.set fnp none }
    else pure { fl with ring }

/-- LIST_DEF(freelist), and a ring that is all zeros. -/
def freelistStart : Freelist where
  nodes := []
  links := ⟨id, id⟩
  ring := ⟨0, 0, 0, List.replicate HOLD_OFF_CACHE_SIZE none⟩

inductive FreelistOp where
  | get
  | put
deriving DecidableEq, Repr

/-- The states of all runs, with the calls made, last one first, and the live
pointers. -/
inductive FreelistRuns : List FreelistOp → Freelist → List DbQueryNodePtr → Prop
  | start : FreelistRuns [] (freelistStart HOLD_OFF_CACHE_SIZE) []
  | get {ops : List FreelistOp} {fl fl' : Freelist} {live : List DbQueryNodePtr}
      {p : DbQueryNodePtr} (run : FreelistRuns ops fl live)
      (call : freelistGet POOL_SIZE HOLD_OFF_CACHE_SIZE fl = .ok (fl', p)) :
      FreelistRuns (.get :: ops) fl' (p :: live)
  | put {ops : List FreelistOp} {fl fl' : Freelist} {live : List DbQueryNodePtr}
      {p : DbQueryNodePtr} (run : FreelistRuns ops fl live) (owned : p ∈ live)
      (call : freelistPut POOL_SIZE HOLD_OFF_CACHE_SIZE fl p = .ok fl') :
      FreelistRuns (.put :: ops) fl' (live.erase p)

def OnFreelist (fl : Freelist) (fnp : Nat) : Prop :=
  ∃ fnps : List Nat, fl.links.Ring .freelist (fnps.map .fnList) ∧ fnp ∈ fnps

def InRing (rp : DbQueryNodeRing) (fnp : Nat) : Prop :=
  ∃ k < rp.rLen, rp.rBuf[(rp.rRd + k) % HOLD_OFF_CACHE_SIZE]? = some (some fnp)

/-- The three records of what is taken agree, and an entirely free node is in
one place. -/
structure Accounted (fl : Freelist) (live : List DbQueryNodePtr) : Prop where
  count : ∀ fnp np, fl.node fnp = .ok np →
    np.fnCount = (clearBits np.fnFree.set POOL_SIZE.size).card
  slots : ∀ fnp np, fl.node fnp = .ok np → ∀ i < POOL_SIZE.size,
    (hasBit np.fnFree.set i = true ↔ ∃ p ∈ live, p.pOwner = fnp ∧ p.pPtr = ⟨fnp, i⟩)
  distinct : (live.map DbQueryNodePtr.pPtr).Nodup
  inside : ∀ p ∈ live, (∃ np, fl.node p.pOwner = .ok np) ∧ p.pPtr.node = p.pOwner ∧
    p.pPtr.idx < POOL_SIZE.size
  parked : ∀ fnp np, fl.node fnp = .ok np →
    (∀ i < POOL_SIZE.size, hasBit np.fnFree.set i = false) →
    Xor (OnFreelist fl fnp) (InRing HOLD_OFF_CACHE_SIZE fl.ring fnp)

end

def POOL_SIZE : BitsetSize := ⟨1 <<< 16, ⟨16, rfl⟩, by decide⟩

def HOLD_OFF_CACHE_SIZE : Nat := 1 <<< 4

end Mepl
