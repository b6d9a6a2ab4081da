import Mathlib.Algebra.Order.Ring.Nat
import Mepl.Base.Dlist
import Mepl.C.Machine

namespace Mepl.Dynarr
open Base

/-- A pointer to an element: its mapping, and the index there. -/
structure Ptr where
  map : Nat
  idx : Nat
deriving DecidableEq, Repr

/-- struct NAME and what it points to. A mapping is none once it is unmapped,
a cell is none until it is written; NULL is none. The build is the one without
DBUG, where ASSERT is nothing. -/
structure Darr (T : Type) where
  /-- the address of d_ptrs, head of the list -/
  dPtrs : Nat
  dCap : Nat
  dLen : Nat
  dArr : Option Nat
  maps : List (Option (List (Option T)))
  links : Links Nat
  /-- the callers' variable that a struct darr_ptr names -/
  ptr : Nat → Nat
  vars : Nat → Option Ptr
  /-- the struct darr_ptrs on the list that free() has not had back -/
  live : List Nat

variable {T : Type}

def DARR_CAP_INIT : Nat := 1 <<< 30

/-- The cells at d_arr. -/
def Darr.cells (dp : Darr T) : Res (List (Option T)) :=
  match dp.dArr with
  | none => .error .fault
  | some b =>
    match dp.maps[b]? with
    | some (some cells) => .ok cells
    | _ => .error .fault

def darrInit (dp : Darr T) : Darr T :=
  { dp with
    dCap := DARR_CAP_INIT
    dArr := some dp.maps.length
    maps := dp.maps ++ [some (List.replicate DARR_CAP_INIT none)]
    dLen := 0
    links := dp.links.init dp.dPtrs
    live := [] }

def darrUnmap (dp : Darr T) : Res (Darr T) :=
  match dp.dArr with
  | none => .error .fault
  | some b => pure { dp with maps := dp.maps.set b none }

/-- p is what malloc() returned. -/
def darrAddPtr (dp : Darr T) (pp p : Nat) : Darr T :=
  { dp with
    links := (dp.links.init p).addAfter dp.dPtrs p
    ptr := Function.update dp.ptr p pp
    live := p :: dp.live }

def darrRmPtr (dp : Darr T) (p : Nat) : Res (Darr T) :=
  if p ∈ dp.live then pure { dp with links := dp.links.rm p, live := dp.live.erase p }
  else .error .fault

/-- (T *)*p->ptr - dp->d_arr, of two pointers into one mapping. -/
def ptrDiff : Option Ptr → Option Nat → Res Nat
  | some p, some b => if p.map = b then pure p.idx else .error .fault
  | _, _ => .error .fault

/-- The rounds of grow's loop over the list from p on. -/
def darrRebind (new : Nat) : Nat → Darr T → Nat → Res (Darr T)
  | 0, _, _ => .error .fuel
  | n + 1, dp, p =>
    if p = dp.dPtrs then pure dp
    else do
      let i ← ptrDiff (dp.vars (dp.ptr p)) dp.dArr
      let vars := Function.update dp.vars (dp.ptr p) (some ⟨new, i⟩)
      darrRebind new n { dp with vars } (dp.links.next p)

/-- No object is so large that cap << 1 elements overflow a size_t. -/
def darrGrow (dp : Darr T) : Res (Darr T) := do
  let cap := dp.dCap <<< 1
  let new := dp.maps.length
  let old ← dp.cells
  if old.length < dp.dCap then .error .fault
  else
    let cells ← fill (List.replicate cap none) (old.take dp.dCap)
    let dp := { dp with maps := dp.maps ++ [some cells] }
    let dp ← darrRebind new (dp.live.length + 1) dp (dp.links.next dp.dPtrs)
    let dp ← darrUnmap dp
    -- d_arr = arr, which is still NULL: the mapping is in new
    pure { dp with dArr := none, dCap := cap }

def darrPush (dp : Darr T) (v : T) : Res (Darr T) := do
  let dp ← if dp.dLen = dp.dCap then darrGrow dp else pure dp
  let cells ← dp.cells
  let cells ← store cells dp.dLen (some v)
  match dp.dArr with
  | none => .error .fault
  | some b => pure { dp with maps := dp.maps.set b (some cells), dLen := dp.dLen + 1 }

/-- A pointer registered with an array: the list's cell, the variable it names
and the index the variable pointed to. -/
structure Registered where
  node : Nat
  var : Nat
  idx : Nat
deriving DecidableEq, Repr

/-- What an array is to hold: its elements and the registered pointers. -/
structure Held (T : Type) where
  xs : List T
  regs : List Registered

/-- The array holds h, and every registered pointer points to its index. -/
structure Holds (dp : Darr T) (h : Held T) : Prop where
  power : ∃ k, dp.dCap = 2 ^ k
  len : dp.dLen = h.xs.length
  fits : h.xs.length ≤ dp.dCap
  cells : ∃ cells, dp.cells = .ok cells ∧ cells.length = dp.dCap ∧
    cells.take h.xs.length = h.xs.map some
  ring : dp.links.Ring dp.dPtrs (h.regs.map Registered.node)
  live : dp.live = h.regs.map Registered.node
  names : ∀ r ∈ h.regs, dp.ptr r.node = r.var
  points : ∀ r ∈ h.regs, r.idx < h.xs.length ∧ dp.vars r.var = dp.dArr.map (⟨·, r.idx⟩)

/-- An array is empty after init, with nothing registered. -/
theorem init_holds (dp : Darr T) : Holds (darrInit dp) ⟨[], []⟩ where
  power := ⟨30, rfl⟩
  len := rfl
  fits := Nat.zero_le _
  cells := ⟨List.replicate DARR_CAP_INIT none, by simp [Darr.cells, darrInit],
    List.length_replicate .., rfl⟩
  ring := Links.ring_init dp.links dp.dPtrs
  live := rfl
  names := by simp
  points := by simp

end Mepl.Dynarr
