import Mepl.Base.Chain
import Mepl.Base.Mutex
import Mepl.Dynarr.Array

namespace Mepl.Dynarr
open Base

def NR_THREADS : Nat := 1 <<< 5

/-- The rounds of free's loop over the list from p on: the variables set to
NULL are fields of blocks, and so are the cells. -/
def darrFreeFrom {T : Type} : Nat → Darr T → List Nat → Nat → Res (Darr T × List Nat)
  | 0, _, _, _ => .error .fuel
  | n + 1, dp, blocks, p =>
    if p = dp.dPtrs then pure (dp, blocks)
    else if p ∉ blocks then .error .fault
    else
      let next := dp.links.next p
      if dp.ptr p ∉ blocks then .error .fault
      else
        let vars := Function.update dp.vars (dp.ptr p) none
        darrFreeFrom n { dp with vars, live := dp.live.erase p } (blocks.erase p) next

/-- blocks is what malloc() has returned and free() not had back. -/
def darrFree {T : Type} (dp : Darr T) (blocks : List Nat) : Res (Darr T × List Nat) := do
  let (dp, blocks) ← darrFreeFrom (dp.live.length + 1) dp blocks (dp.links.next dp.dPtrs)
  let dp := { dp with links := dp.links.init dp.dPtrs }
  let dp ← darrUnmap dp
  pure ({ dp with dArr := none }, blocks)

/-- Where a thread is, by the next statement it executes: in workerbee with i,
or in add_num(i) with its p and r. -/
inductive Pc where
  /-- the test of workerbee's loop -/
  | loop (i : Nat)
  /-- the first pthread_mutex_lock of nums_mut -/
  | lock (i : Nat)
  /-- intarr_push, and the count of the switches -/
  | push (i : Nat)
  /-- pthread_mutex_unlock for an even number -/
  | release (i : Nat)
  /-- malloc -/
  | alloc (i : Nat)
  | lockPtrs (i p : Nat)
  /-- p->next = ptrs; ptrs = p -/
  | link (i p : Nat)
  | unlockPtrs (i p : Nat)
  /-- rand -/
  | draw (i p : Nat)
  /-- the second pthread_mutex_lock of nums_mut -/
  | relock (i p r : Nat)
  /-- p->p = &nums.d_arr[r % nums.d_len], registered -/
  | point (i p r : Nat)
  /-- the last pthread_mutex_unlock -/
  | unlock (i : Nat)
  | done
deriving DecidableEq, Repr

/-- A thread and its struct range. -/
structure Worker where
  low : Nat
  high : Nat
  pc : Pc
deriving DecidableEq, Repr

inductive MainPc where
  /-- the loop of pthread_create -/
  | create
  /-- pthread_join of thread k -/
  | join (k : Nat)
  /-- intarr_free -/
  | freeArr
  /-- ptrs_free -/
  | freePtrs
  | returned
deriving DecidableEq, Repr

/-- The program's variables, its threads and its heap. A struct ptr is named by
its address; its next is none until it is written. -/
structure Prog where
  nums : Darr Nat
  nswitches : Nat
  numsMut : Option Nat
  ptrs : Option Nat
  next : Nat → Option (Option Nat)
  ptrsMut : Option Nat
  blocks : List Nat
  threads : List Worker
  main : MainPc

def Prog.go (s : Prog) (t : Nat) (w : Worker) (pc : Pc) : Prog :=
  { s with threads := s.threads.set t { w with pc } }

/-- What malloc() may return. -/
def Prog.Fresh (s : Prog) (p : Nat) : Prop := p ∉ s.nums.dPtrs :: s.blocks

instance (s : Prog) (p : Nat) : Decidable (s.Fresh p) := by
  unfold Prog.Fresh
  infer_instance

/-- The next statement of thread t, none while it has to wait; c is what malloc()
or rand() returns in it. A malloc() that fails is left out: the program ends in
die() there. -/
def threadStep (s : Prog) (t : Nat) (w : Worker) (c : Nat) : Option (Res Prog) :=
  match w.pc with
  | .loop i => some (.ok (s.go t w (if i < w.high then .lock i else .done)))
  | .lock i =>
    if s.numsMut = none then some (.ok { s.go t w (.push i) with numsMut := some t }) else none
  | .push i => some (do
    let nums ← darrPush s.nums i
    let nswitches := if nums.dArr ≠ s.nums.dArr then s.nswitches + 1 else s.nswitches
    pure { s.go t w (if i % 2 = 0 then .release i else .unlock i) with nums, nswitches })
  | .release i => some (.ok { s.go t w (.alloc i) with numsMut := none })
  | .alloc i =>
    if s.Fresh c then some (.ok { s.go t w (.lockPtrs i c) with blocks := c :: s.blocks })
    else none
  | .lockPtrs i p =>
    if s.ptrsMut = none then some (.ok { s.go t w (.link i p) with ptrsMut := some t }) else none
  | .link i p =>
    some (if p ∈ s.blocks then .ok { s.go t w (.unlockPtrs i p) with
        next := Function.update s.next p (some s.ptrs)
        ptrs := some p }
      else .error .fault)
  | .unlockPtrs i p => some (.ok { s.go t w (.draw i p) with ptrsMut := none })
  | .draw i p => some (.ok (s.go t w (.relock i p c)))
  | .relock i p r =>
    if s.numsMut = none then some (.ok { s.go t w (.point i p r) with numsMut := some t })
    else none
  | .point i p r =>
    if s.Fresh c then
      some (if s.nums.dLen = 0 ∨ p ∉ s.blocks then .error .fault
        else
          let elem := s.nums.dArr.map (⟨·, r % s.nums.dLen⟩)
          let nums := { s.nums with vars := Function.update s.nums.vars p elem }
          .ok { s.go t w (.unlock i) with
            nums := darrAddPtr nums p c
            blocks := c :: s.blocks })
    else none
  | .unlock i => some (.ok { s.go t w (.loop (i + 1)) with numsMut := none })
  | .done => none

/-- The rounds of ptrs_free from p on. -/
def ptrsFree (next : Nat → Option (Option Nat)) : Nat → Option Nat → List Nat → Res (List Nat)
  | 0, _, _ => .error .fuel
  | _ + 1, none, blocks => pure blocks
  | n + 1, some p, blocks =>
    if p ∉ blocks then .error .fault
    else match next p with
      | none => .error .fault
      | some q => ptrsFree next n q (blocks.erase p)

section
variable (q : Nat)

/-- The next statement of main, for ranges of q numbers. -/
def mainStep (s : Prog) : Option (Res Prog) :=
  match s.main with
  | .create =>
    if s.threads.length < NR_THREADS then
      let low := s.threads.length * q
      some (.ok { s with threads := s.threads ++ [⟨low, low + q, .loop low⟩] })
    else some (.ok { s with main := .join 0 })
  | .join k =>
    if k < NR_THREADS then
      if s.threads[k]?.map Worker.pc = some .done then some (.ok { s with main := .join (k + 1) })
      else none
    else some (.ok { s with main := .freeArr })
  | .freeArr => some (do
    let (nums, blocks) ← darrFree s.nums s.blocks
    pure { s with nums, blocks, main := .freePtrs })
  | .freePtrs => some (do
    let blocks ← ptrsFree s.next (s.blocks.length + 1) s.ptrs s.blocks
    pure { s with blocks, main := .returned })
  | .returned => none

/-- One statement of main or of thread t. -/
def Prog.step (s : Prog) (c : Nat) : Option Nat → Option (Res Prog)
  | none => mainStep q s
  | some t =>
    match s.threads[t]? with
    | none => none
    | some w => threadStep s t w c

/-- The program where main starts to create the threads; dp is nums before
intarr_init. -/
def started (dp : Darr Nat) : Prog where
  nums := darrInit dp
  nswitches := 0
  numsMut := none
  ptrs := none
  next := fun _ => none
  ptrsMut := none
  blocks := []
  threads := []
  main := .create

/-- The states of all runs, whatever the order of the steps and the values
malloc() and rand() return. -/
inductive Reached (dp : Darr Nat) : Prog → Prop
  | start : Reached dp (started dp)
  | step {s s' : Prog} {c : Nat} {who : Option Nat} (run : Reached dp s)
      (call : s.step q c who = some (.ok s')) : Reached dp s'

end

end Mepl.Dynarr
