import Mepl.Alloc.Bitset
import Mepl.Base.Dlist

namespace Mepl
open Base

namespace SlabNodes

/-- assert() of a DBUG build. -/
def ASSERT (cond : Bool) (text : String) : Res Unit := if cond then pure () else .error (.dbug text)

def isPowerOf2 (n : Nat) : Bool := n > 0 && (n &&& (n - 1)) == 0

/-- b_set is what malloc() returned, b_size the number of bits in it. -/
structure Bits where
  bSet : List (BitVec 64)
  bLast : Nat
  bSize : Nat
deriving DecidableEq, Repr

def BITSET_COUNT (size : Nat) : Nat := size <<< BITSET_SHIFT % 2 ^ 64

def sizeBigEnough (size : Nat) : Bool := BITSET_SIZE size > 0

def bitsetBaseCheck (bp : Bits) : Res Unit := do
  ASSERT (isPowerOf2 bp.bSize) "is_power_of_2((bp)->b_size)"
  ASSERT (sizeBigEnough bp.bSize) "size_big_enough((bp)->b_size)"
  ASSERT (bp.bLast < BITSET_SIZE bp.bSize) "(bp)->b_last < bitset_size(bp)"

def bitsetIdxCheck (bp : Bits) (word bit : Nat) : Res Unit := do
  ASSERT (word < BITSET_SIZE bp.bSize) "word < bitset_size(bp)"
  ASSERT (bit < 64) "bit < BITS_PER_WORD"

def bitsetOp (bp : Bits) (op : BitVec 64 → Nat → BitVec 64) (n : Nat) : Res Bits := do
  let word := BITSET_WORD_IDX n
  let bit := BITSET_BIT_IDX n
  bitsetBaseCheck bp
  bitsetIdxCheck bp word bit
  let w ← load bp.bSet word
  let bSet ← store bp.bSet word (op w bit)
  pure { bp with bSet, bLast := if word < bp.bLast then word else bp.bLast }

/-- The words of the set are the contents malloc() left there. -/
def setInit (size : Nat) (contents : Nat → BitVec 64) : Res Bits := do
  ASSERT (isPowerOf2 size) "is_power_of_2(size)"
  ASSERT (sizeBigEnough size) "size_big_enough(size)"
  pure { bSet := (List.range (BITSET_SIZE size)).map contents, bLast := 0, bSize := size }

/-- The rounds of first_zero from word i on. -/
def setFirstZeroFrom (bp : Bits) : Nat → Nat → Res (Nat × Bits)
  | 0, _ => .error (.dbug "0")
  | n + 1, i => do
    let w ← load bp.bSet i
    let bit := wordFirstZero w
    if bit < 0 then setFirstZeroFrom bp n (i + 1)
    else
      let idx := (i <<< BITSET_SHIFT) + bit.toNat
      if idx < BITSET_COUNT bp.bSize then pure (idx, { bp with bLast := i })
      else setFirstZeroFrom bp n (i + 1)

def setFirstZero (bp : Bits) : Res (Nat × Bits) := do
  bitsetBaseCheck bp
  setFirstZeroFrom bp (BITSET_SIZE bp.bSize) 0

def setSet (bp : Bits) (n : Nat) : Res Bits := bitsetOp bp setBit n

def setClear (bp : Bits) (n : Nat) : Res Bits := bitsetOp bp clearBit n

/-- A ring of nodes; none is a place not written yet. -/
structure Ring where
  rWr : Nat
  rRd : Nat
  rLen : Nat
  rSize : Nat
  rBuf : List (Option Nat)
deriving DecidableEq, Repr

def ringBaseCheck (rp : Ring) : Res Unit := do
  ASSERT (rp.rRd < rp.rSize) "(rp)->r_rd < rp->r_size"
  ASSERT (rp.rWr < rp.rSize) "(rp)->r_wr < rp->r_size"
  ASSERT (rp.rLen ≤ rp.rSize) "(rp)->r_len <= rp->r_size"
  ASSERT (isPowerOf2 rp.rSize) "is_power_of_2(rp->r_size)"

def wrapInc (p size : Nat) : Nat := (p + 1) &&& (size - 1)

def wrapDec (p size : Nat) : Nat := (p + 2 ^ 64 - 1) % 2 ^ 64 &&& (size - 1)

def ringInit (size : Nat) : Res Ring := do
  ASSERT (isPowerOf2 size) "is_power_of_2(size)"
  pure { rWr := 0, rRd := 0, rLen := 0, rSize := size, rBuf := List.replicate size none }

def ringFull (rp : Ring) : Res Bool := do
  ringBaseCheck rp
  pure (rp.rLen == rp.rSize)

def ringEmpty (rp : Ring) : Res Bool := do
  ringBaseCheck rp
  pure (rp.rLen == 0)

def ringWrBack (rp : Ring) (v : Nat) : Res Ring := do
  ringBaseCheck rp
  let rBuf ← store rp.rBuf rp.rWr (some v)
  pure { rp with rBuf, rWr := wrapInc rp.rWr rp.rSize, rLen := rp.rLen + 1 }

/-- What is at a place of r_buf. -/
def ringLoad (rp : Ring) (i : Nat) : Res Nat := do
  let v ← load rp.rBuf i
  match v with
  | some v => pure v
  | none => .error .fault

def ringRdBack (rp : Ring) : Res (Nat × Ring) := do
  ringBaseCheck rp
  let rp := { rp with rWr := wrapDec rp.rWr rp.rSize }
  let v ← ringLoad rp rp.rWr
  pure (v, { rp with rLen := sizeDec rp.rLen })

def ringRdFront (rp : Ring) : Res (Nat × Ring) := do
  ringBaseCheck rp
  let v ← ringLoad rp rp.rRd
  pure (v, { rp with rRd := wrapInc rp.rRd rp.rSize, rLen := sizeDec rp.rLen })

/-- A node, but for n_nodes, which is among the links; n_arr is the number of
its malloc(). -/
structure Node where
  nSet : Bits
  nCount : Nat
  nArr : Nat
deriving DecidableEq, Repr

/-- &n_arr[idx] -/
structure ArrPtr where
  arr : Nat
  idx : Nat
deriving DecidableEq, Repr

/-- A struct ptr, of base.h. -/
structure Ptr where
  pOwner : Nat
  pPtr : ArrPtr
deriving DecidableEq, Repr

/-- A struct list *: one of the two heads, or n_nodes of a node. -/
inductive Link where
  | sAvail
  | sEmpty
  | nNodes (np : Nat)
deriving DecidableEq, Repr

/-- The slab. The nodes are named in the order of their malloc(); none is a
node freed again, or not written yet. The checks of a pointer against NULL are
in the types. -/
structure Slab where
  nodes : List (Option Node)
  links : Links Link
  sRing : Ring
  sArrSize : Nat
  mallocs : Nat

def Slab.node (sp : Slab) (np : Nat) : Res Node :=
  match sp.nodes[np]? with
  | some (some n) => pure n
  | _ => .error .fault

def Slab.setNode (sp : Slab) (np : Nat) (n : Node) : Slab :=
  { sp with nodes := sp.nodes.set np (some n) }

def slabBaseCheck (sp : Slab) : Res Unit := do
  ASSERT (sp.sArrSize != 0) "(sp)->s_arr_size"
  ASSERT (isPowerOf2 sp.sArrSize) "is_power_of_2((sp)->s_arr_size)"

def nodePut (sp : Slab) (np : Nat) (ptr : ArrPtr) : Res Slab := do
  let n ← sp.node np
  if ptr.arr = n.nArr then do
    let nSet ← setClear n.nSet ptr.idx
    pure (sp.setNode np { n with nSet })
  else .error .fault

def nodeGet (sp : Slab) (np : Nat) : Res (Slab × ArrPtr) := do
  let n ← sp.node np
  let (idx, nSet) ← setFirstZero n.nSet
  let nSet ← setSet nSet idx
  pure (sp.setNode np { n with nSet, nCount := sizeDec n.nCount }, { arr := n.nArr, idx })

section
variable (contents : Nat → Nat → BitVec 64) (addr : Link → Nat)

/-- contents are what each malloc() leaves in the words it returns. -/
def nodeNew (sp : Slab) : Res (Slab × Nat) := do
  slabBaseCheck sp
  let empty ← ringEmpty sp.sRing
  let (np, sp) ← (if !empty then do
      let (np, sRing) ← ringRdBack sp.sRing
      pure (np, { sp with sRing })
    else pure (sp.nodes.length, { sp with nodes := sp.nodes ++ [none] }))
  let nSet ← setInit sp.sArrSize (contents sp.mallocs)
  let n := { nSet, nCount := sp.sArrSize, nArr := sp.mallocs + 1 }
  let sp := { sp with links := sp.links.init (.nNodes np), mallocs := sp.mallocs + 2 }
  pure (sp.setNode np n, np)

def doNodeFree (sp : Slab) (np : Nat) : Res Slab := do
  let n ← sp.node np
  bitsetBaseCheck n.nSet
  pure { sp with links := sp.links.rm (.nNodes np), nodes := sp.nodes.set np none }

def nodeFree (sp : Slab) (np : Nat) : Res Slab := do
  slabBaseCheck sp
  let sp := { sp with links := sp.links.rm (.nNodes np) }
  let full ← ringFull sp.sRing
  let sp ← (if full then do
      let (cold, sRing) ← ringRdFront sp.sRing
      doNodeFree { sp with sRing } cold
    else pure sp)
  let sRing ← ringWrBack sp.sRing np
  pure { sp with sRing }

/-- What the search of slab_get stops at; s_avail is not in a node. -/
def availCount (sp : Slab) : Link → Res Bool
  | .nNodes np => do
    let n ← sp.node np
    pure (n.nCount != 0)
  | _ => .error .fault

def slabInit (arrSize ringSize : Nat) : Res Slab := do
  ASSERT (isPowerOf2 arrSize) "is_power_of_2(arr_size)"
  ASSERT (isPowerOf2 ringSize) "is_power_of_2(ring_size)"
  let sRing ← ringInit ringSize
  let links : Links Link := ⟨id, id⟩
  pure { nodes := [], links := (links.init .sAvail).init .sEmpty, sRing, sArrSize := arrSize,
         mallocs := 0 }

def slabGet (sp : Slab) : Res (Slab × Ptr) := do
  slabBaseCheck sp
  let p ← sp.links.search .sAvail (availCount sp) .fuel (sp.nodes.length + 1)
    (sp.links.next .sAvail)
  let (sp, np) ← (match p with
    | .nNodes np => pure (sp, np)
    | _ => nodeNew contents sp)
  let (sp, vp) ← nodeGet sp np
  let n ← sp.node np
  let ptr := { pOwner := np, pPtr := vp }
  if n.nCount = 0 then
    pure ({ sp with links := (sp.links.rm (.nNodes np)).addAfter .sEmpty (.nNodes np) }, ptr)
  else pure (sp, ptr)

/-- node(&sp->s_avail.next) is taken of the head, not of the node behind it:
its n_count is s_empty.next, read as a number. -/
def slabPut (sp : Slab) (p : Ptr) : Res Slab := do
  slabBaseCheck sp
  let np := p.pOwner
  let sp ← nodePut sp np p.pPtr
  let n ← sp.node np
  if n.nCount = sp.sArrSize then nodeFree sp np
  else if n.nCount > addr (sp.links.next .sEmpty) then
    pure { sp with links := (sp.links.rm (.nNodes np)).addAfter .sAvail (.nNodes np) }
  else pure sp

end

end SlabNodes

end Mepl
