import Mepl.Slab.Stack

namespace Mepl

/-- Where a thread is, by the next statement it executes. -/
inductive Pc where
  /-- in neither function -/
  | out
  /-- MUTEX_LOCK of COND_WAIT -/
  | getLock
  /-- the test of COND_WAIT -/
  | getTest
  /-- pthread_cond_wait, after a test that failed -/
  | getWait
  | getAsleep
  /-- still in pthread_cond_wait, to take the mutex again -/
  | getWoken
  /-- s_get -/
  | getSlab
  /-- MUTEX_UNLOCK -/
  | getUnlock (p : Nat)
  /-- s_put -/
  | putSlab (p : Nat)
  /-- COND_SIGNAL -/
  | putSignal
deriving DecidableEq, Repr

/-- A slab_tab_entry, its threads, and the pointers their callers have. -/
structure SlabTabEntry where
  steSlab : SlabStack
  steMut : Option Nat
  threads : List Pc
  live : List Nat
deriving DecidableEq, Repr

def SlabTabEntry.go (s : SlabTabEntry) (i : Nat) (pc : Pc) : SlabTabEntry :=
  { s with threads := s.threads.set i pc }

section
variable (s : SlabTabEntry) (i : Nat) (pc : Pc)

@[simp] theorem SlabTabEntry.go_threads : (s.go i pc).threads = s.threads.set i pc := rfl

@[simp] theorem SlabTabEntry.go_slab : (s.go i pc).steSlab = s.steSlab := rfl

@[simp] theorem SlabTabEntry.go_mut : (s.go i pc).steMut = s.steMut := rfl

@[simp] theorem SlabTabEntry.go_live : (s.go i pc).live = s.live := rfl

end

/-- One step of thread i. pthread_cond_wait may return by itself; a signal wakes
one thread, if any is asleep. -/
inductive TabStep (s : SlabTabEntry) : Nat → SlabTabEntry → Prop
  | callGet {i : Nat} (pc : s.threads[i]? = some Pc.out) : TabStep s i (s.go i .getLock)
  | callPut {i p : Nat} (pc : s.threads[i]? = some Pc.out) (owned : p ∈ s.live) :
      TabStep s i { s.go i (.putSlab p) with live := s.live.erase p }
  | lock {i : Nat} (pc : s.threads[i]? = some Pc.getLock) (free : s.steMut = none) :
      TabStep s i { s.go i .getTest with steMut := some i }
  | test {i : Nat} (pc : s.threads[i]? = some Pc.getTest) :
      TabStep s i (s.go i (if doSlabEmpty s.steSlab then .getWait else .getSlab))
  | sleep {i : Nat} (pc : s.threads[i]? = some Pc.getWait) :
      TabStep s i { s.go i .getAsleep with steMut := none }
  | wake {i : Nat} (pc : s.threads[i]? = some Pc.getAsleep) : TabStep s i (s.go i .getWoken)
  | relock {i : Nat} (pc : s.threads[i]? = some Pc.getWoken) (free : s.steMut = none) :
      TabStep s i { s.go i .getTest with steMut := some i }
  | get {i p : Nat} {sp : SlabStack} (pc : s.threads[i]? = some Pc.getSlab)
      (call : doSlabGet s.steSlab = .ok (sp, p)) :
      TabStep s i { s.go i (.getUnlock p) with steSlab := sp }
  | unlock {i p : Nat} (pc : s.threads[i]? = some (.getUnlock p)) :
      TabStep s i { s.go i .out with steMut := none, live := p :: s.live }
  | put {i p : Nat} {sp : SlabStack} (pc : s.threads[i]? = some (.putSlab p))
      (call : doSlabPut s.steSlab p = .ok sp) :
      TabStep s i { s.go i .putSignal with steSlab := sp }
  | signal {i j : Nat} (pc : s.threads[i]? = some Pc.putSignal)
      (asleep : s.threads[j]? = some Pc.getAsleep) :
      TabStep s i ((s.go j .getWoken).go i .out)
  | signalNone {i : Nat} (pc : s.threads[i]? = some Pc.putSignal)
      (none : ∀ j : Nat, s.threads[j]? ≠ some Pc.getAsleep) : TabStep s i (s.go i .out)

/-- The states of the runs of any number of threads whose steps all meet ok. -/
inductive TabRuns (t : SlabType) (ok : SlabTabEntry → Nat → Prop) : SlabTabEntry → Prop
  | start {sp sp' : SlabStack} (n : Nat) (array : sp.free.length = t.SIZE)
      (call : doSlabInit t sp = .ok sp') :
      TabRuns t ok ⟨sp', none, List.replicate n .out, []⟩
  | step {s s' : SlabTabEntry} {i : Nat} (run : TabRuns t ok s) (meets : ok s i)
      (step : TabStep s i s') : TabRuns t ok s'

/-- A thread sleeps beside a free element, and no other thread is in a call. -/
def LostWakeup (s : SlabTabEntry) : Prop :=
  doSlabEmpty s.steSlab = false ∧ ∃ i : Nat, s.threads[i]? = some Pc.getAsleep ∧
    ∀ (j : Nat) (pc : Pc), j ≠ i → s.threads[j]? = some pc → pc = Pc.out

/-- The thread has the mutex. -/
def Pc.locked : Pc → Bool
  | .getTest | .getWait | .getSlab | .getUnlock _ => true
  | _ => false

/-- The thread sleeps, or will before it looks again. -/
def Pc.blocked : Pc → Bool
  | .getWait | .getAsleep => true
  | _ => false

/-- The thread is still to take an element or find none, or still to signal. -/
def Pc.serving : Pc → Bool
  | .getLock | .getTest | .getWoken | .getSlab | .putSignal => true
  | _ => false

/-- A signal that can be lost is not needed: when nobody sleeps but a thread is
between its failed test and its sleep, the other threads still to signal or to
test take all that is free. -/
def SignalHeard (s : SlabTabEntry) (i : Nat) : Prop :=
  s.threads[i]? = some Pc.putSignal →
    (∃ j : Nat, s.threads[j]? = some Pc.getAsleep) ∨ (∀ j : Nat, s.threads[j]? ≠ some Pc.getWait) ∨
    s.steSlab.fp < s.threads.countP Pc.serving

end Mepl
