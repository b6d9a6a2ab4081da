import Mepl.Alloc.SlabRuns
import Mepl.Base.Window

namespace Mepl
open Base

namespace SlabNodes

/-- The rounds of ring_for_each from index i on: the indices its body gets. -/
def ringForEachFrom (rp : Ring) : Nat → Nat → List Nat
  | 0, _ => []
  | n + 1, i => i :: ringForEachFrom rp n (wrapInc i rp.rSize)

def ringForEach (rp : Ring) : List Nat := ringForEachFrom rp rp.rLen rp.rRd

inductive RingOp where
  | wrBack (v : Nat)
  | rdBack
  | rdFront
deriving DecidableEq, Repr

/-- A call, made only when the ring is not full or not empty, and what it read. -/
def ringCall (rp : Ring) : RingOp → Res (Ring × Option Nat)
  | .wrBack v => do
    if ← ringFull rp then pure (rp, none)
    else
      let rp ← ringWrBack rp v
      pure (rp, none)
  | .rdBack => do
    if ← ringEmpty rp then pure (rp, none)
    else
      let (v, rp) ← ringRdBack rp
      pure (rp, some v)
  | .rdFront => do
    if ← ringEmpty rp then pure (rp, none)
    else
      let (v, rp) ← ringRdFront rp
      pure (rp, some v)

def ringCalls (rp : Ring) : List RingOp → Res (Ring × List (Option Nat))
  | [] => pure (rp, [])
  | op :: ops => do
    let (rp, v) ← ringCall rp op
    let (rp, vs) ← ringCalls rp ops
    pure (rp, v :: vs)

def ringRun (size : Nat) (ops : List RingOp) : Res (Ring × List (Option Nat)) := do
  let rp ← ringInit size
  ringCalls rp ops

/-- The same call on a list of at most size values. -/
def dequeCall (size : Nat) (xs : List Nat) : RingOp → List Nat × Option Nat
  | .wrBack v => (if xs.length < size then xs ++ [v] else xs, none)
  | .rdBack => (xs.dropLast, xs.getLast?)
  | .rdFront => (xs.tail, xs.head?)

def dequeCalls (size : Nat) (xs : List Nat) : List RingOp → List Nat × List (Option Nat)
  | [] => (xs, [])
  | op :: ops =>
    let (xs, v) := dequeCall size xs op
    let (xs, vs) := dequeCalls size xs ops
    (xs, v :: vs)

/-- What the ring's functions say of it is what holds of the list. -/
structure RingShows (rp : Ring) (size : Nat) (xs : List Nat) : Prop where
  few : xs.length ≤ size
  check : ringBaseCheck rp = .ok ()
  full : ringFull rp = .ok (xs.length == size)
  empty : ringEmpty rp = .ok (xs.length == 0)
  visits : (ringForEach rp).mapM (ringLoad rp) = .ok xs

/-- The values are in the buffer from r_rd on, up to r_wr. -/
structure RingHolds (rp : Ring) (size : Nat) (xs : List Nat) : Prop where
  window : Window rp.rBuf rp.rRd xs
  len : rp.rLen = xs.length
  sized : rp.rSize = size
  cells : rp.rBuf.length = size
  rd : rp.rRd < size
  wr : rp.rWr = (rp.rRd + xs.length) % size

variable {rp : Ring} {xs : List Nat} {k : Nat}

theorem wrap_inc (p k : Nat) : wrapInc p (2 ^ k) = (p + 1) % 2 ^ k :=
  Nat.and_two_pow_sub_one_eq_mod (p + 1) k

/-- Going back from the place behind the window; from 0 the decrement wraps to
the largest size_t, and the mask makes it the last place. -/
theorem wrap_dec_place (hk : k < 64) (p : Nat) :
    wrapDec ((p + 1) % 2 ^ k) (2 ^ k) = p % 2 ^ k := by
  obtain ⟨c, hc⟩ : 2 ^ k ∣ 2 ^ 64 := Nat.pow_dvd_pow 2 (Nat.le_of_lt hk)
  rw [wrapDec, Nat.and_two_pow_sub_one_eq_mod, Nat.mod_mod_of_dvd _ ⟨c, hc⟩,
    Nat.add_sub_assoc (by omega), Nat.mod_add_mod, Nat.add_assoc, Nat.add_sub_cancel' (by omega),
    hc, Nat.add_mul_mod_self_left]

theorem RingHolds.check (h : RingHolds rp (2 ^ k) xs) : ringBaseCheck rp = .ok () := by
  have hfits := h.window.fits
  have hwr : rp.rWr < 2 ^ k := by
    rw [h.wr]
    exact Nat.mod_lt _ (Nat.two_pow_pos k)
  rw [h.cells] at hfits
  simp [ringBaseCheck, ASSERT, h.sized, h.rd, hwr, h.len, hfits, is_power_of_2_pow]

theorem RingHolds.full (h : RingHolds rp (2 ^ k) xs) :
    ringFull rp = .ok (xs.length == 2 ^ k) := by
  rw [ringFull, h.check, h.len, h.sized]
  rfl

theorem RingHolds.empty (h : RingHolds rp (2 ^ k) xs) : ringEmpty rp = .ok (xs.length == 0) := by
  rw [ringEmpty, h.check, h.len]
  rfl

/-- The indices of ring_for_each are those of the values, front to back. -/
theorem for_each_from_loads {i : Nat} (h : Window rp.rBuf i xs) (hsize : rp.rSize = 2 ^ k)
    (hlen : rp.rBuf.length = 2 ^ k) (hi : i < 2 ^ k) :
    (ringForEachFrom rp xs.length i).mapM (ringLoad rp) = .ok xs := by
  induction xs generalizing i with
  | nil => rfl
  | cons x xs ih =>
    have hhead := h.head
    have htail := h.tail
    rw [hlen, Nat.mod_eq_of_lt hi] at hhead
    rw [hlen] at htail
    have hload : ringLoad rp i = .ok x := by
      rw [ringLoad, load_some hhead]
      rfl
    rw [List.length_cons, ringForEachFrom, hsize, wrap_inc, List.mapM_cons, hload, ok_bind,
      ih htail (Nat.mod_lt _ (Nat.two_pow_pos k))]
    rfl

theorem RingHolds.shows (h : RingHolds rp (2 ^ k) xs) : RingShows rp (2 ^ k) xs where
  few := h.cells ▸ h.window.fits
  check := h.check
  full := h.full
  empty := h.empty
  visits := by
    rw [ringForEach, h.len]
    exact for_each_from_loads h.window h.sized h.cells h.rd

theorem ring_init_holds (k : Nat) :
    ∃ rp, ringInit (2 ^ k) = .ok rp ∧ RingHolds rp (2 ^ k) [] := by
  refine ⟨⟨0, 0, 0, 2 ^ k, List.replicate (2 ^ k) none⟩, ?_, window_nil, rfl, rfl, ?_, ?_, ?_⟩
  · simp [ringInit, ASSERT, is_power_of_2_pow]
  · exact List.length_replicate
  · exact Nat.two_pow_pos k
  · simp

theorem RingHolds.wr_back (h : RingHolds rp (2 ^ k) xs) (hroom : xs.length < 2 ^ k) (v : Nat) :
    ∃ rp', ringWrBack rp v = .ok rp' ∧ RingHolds rp' (2 ^ k) (xs ++ [v]) := by
  have hwindow := h.window.snoc (h.cells.symm ▸ hroom) v
  rw [h.cells, ← h.wr] at hwindow
  have hstore : store rp.rBuf rp.rWr (some v) = .ok (rp.rBuf.set rp.rWr (some v)) := by
    apply store_lt
    rw [h.wr, h.cells]
    exact Nat.mod_lt _ (Nat.two_pow_pos k)
  have hrun : ringWrBack rp v = .ok { rp with
      rBuf := rp.rBuf.set rp.rWr (some v), rWr := wrapInc rp.rWr rp.rSize
      rLen := rp.rLen + 1 } := by
    rw [ringWrBack, h.check, ok_bind, hstore]
    rfl
  refine ⟨_, hrun, hwindow, ?_, h.sized, ?_, h.rd, ?_⟩
  · simp [h.len]
  · simp [h.cells]
  · simp only [h.sized, wrap_inc, h.wr, List.length_append, List.length_singleton]
    exact place_succ _ _ _

theorem RingHolds.rd_front {x : Nat} (h : RingHolds rp (2 ^ k) (x :: xs)) :
    ∃ rp', ringRdFront rp = .ok (x, rp') ∧ RingHolds rp' (2 ^ k) xs := by
  have hhead := h.window.head
  have htail := h.window.tail
  rw [h.cells, Nat.mod_eq_of_lt h.rd] at hhead
  rw [h.cells, ← wrap_inc] at htail
  have hload : ringLoad rp rp.rRd = .ok x := by
    rw [ringLoad, load_some hhead]
    rfl
  have hrun : ringRdFront rp =
      .ok (x, { rp with rRd := wrapInc rp.rRd rp.rSize, rLen := sizeDec rp.rLen }) := by
    rw [ringRdFront, h.check, ok_bind, hload]
    rfl
  refine ⟨_, hrun, ?_, ?_, h.sized, h.cells, ?_, ?_⟩
  · rw [h.sized]
    exact htail
  · simp [h.len]
  · simp only [h.sized, wrap_inc]
    exact Nat.mod_lt _ (Nat.two_pow_pos k)
  · simp only [h.sized, wrap_inc, h.wr, List.length_cons, Nat.mod_add_mod]
    rw [Nat.add_assoc, Nat.add_comm 1]

theorem RingHolds.rd_back {x : Nat} (hk : k < 64) (h : RingHolds rp (2 ^ k) (xs ++ [x])) :
    ∃ rp', ringRdBack rp = .ok (x, rp') ∧ RingHolds rp' (2 ^ k) xs := by
  have hlast := h.window.last
  rw [h.cells] at hlast
  have hwr : wrapDec rp.rWr rp.rSize = (rp.rRd + xs.length) % 2 ^ k := by
    rw [h.wr, h.sized, List.length_append, List.length_singleton, ← Nat.add_assoc,
      wrap_dec_place hk]
  have hload : ringLoad { rp with rWr := wrapDec rp.rWr rp.rSize } (wrapDec rp.rWr rp.rSize) =
      .ok x := by
    rw [ringLoad, hwr, load_some hlast]
    rfl
  have hrun : ringRdBack rp =
      .ok (x, { rp with rWr := wrapDec rp.rWr rp.rSize, rLen := sizeDec rp.rLen }) := by
    rw [ringRdBack, h.check, ok_bind]
    simp only [hload, ok_bind, pure_ok]
  refine ⟨_, hrun, h.window.init, ?_, h.sized, h.cells, h.rd, hwr⟩
  simp [h.len]

theorem ring_call_holds (hk : k < 64) (h : RingHolds rp (2 ^ k) xs) (op : RingOp) :
    ∃ rp', ringCall rp op = .ok (rp', (dequeCall (2 ^ k) xs op).2) ∧
      RingHolds rp' (2 ^ k) (dequeCall (2 ^ k) xs op).1 := by
  have hfew := h.shows.few
  cases op with
  | wrBack v =>
    rw [ringCall, h.full, ok_bind, dequeCall]
    by_cases hroom : xs.length < 2 ^ k
    · obtain ⟨rp', hrun, h'⟩ := h.wr_back hroom v
      have hne : xs.length ≠ 2 ^ k := by omega
      exact ⟨rp', by simp [hne, hrun], by simpa [hroom] using h'⟩
    · have he : xs.length = 2 ^ k := by omega
      exact ⟨rp, by simp [he], by simpa [hroom] using h⟩
  | rdBack =>
    rw [ringCall, h.empty, ok_bind, dequeCall]
    rcases List.eq_nil_or_concat' xs with rfl | ⟨ys, y, rfl⟩
    · exact ⟨rp, rfl, h⟩
    · obtain ⟨rp', hrun, h'⟩ := h.rd_back hk
      exact ⟨rp', by simp [hrun], by simpa using h'⟩
  | rdFront =>
    rw [ringCall, h.empty, ok_bind, dequeCall]
    cases xs with
    | nil => exact ⟨rp, rfl, h⟩
    | cons x xs =>
      obtain ⟨rp', hrun, h'⟩ := h.rd_front
      exact ⟨rp', by simp [hrun], h'⟩

theorem ring_calls_hold (hk : k < 64) (h : RingHolds rp (2 ^ k) xs) (ops : List RingOp) :
    ∃ rp', ringCalls rp ops = .ok (rp', (dequeCalls (2 ^ k) xs ops).2) ∧
      RingHolds rp' (2 ^ k) (dequeCalls (2 ^ k) xs ops).1 := by
  induction ops generalizing rp xs with
  | nil => exact ⟨rp, rfl, h⟩
  | cons op ops ih =>
    obtain ⟨rp₁, hcall, h₁⟩ := ring_call_holds hk h op
    obtain ⟨rp', hrun, h'⟩ := ih h₁
    exact ⟨rp', by simp only [ringCalls, hcall, ok_bind, hrun, dequeCalls, pure_ok], h'⟩

/-- Every run reads from the ring what it would from the list, and the ring it
leaves shows that list. -/
theorem ring_deque (hk : k < 64) (ops : List RingOp) :
    ∃ rp, ringRun (2 ^ k) ops = .ok (rp, (dequeCalls (2 ^ k) [] ops).2) ∧
      RingShows rp (2 ^ k) (dequeCalls (2 ^ k) [] ops).1 := by
  obtain ⟨rp₀, hinit, h₀⟩ := ring_init_holds k
  obtain ⟨rp, hrun, h⟩ := ring_calls_hold hk h₀ ops
  refine ⟨rp, ?_, h.shows⟩
  rw [ringRun, hinit]
  exact hrun

theorem ring_deque_two : 1 < 64 ∧
    ∃ rp, ringRun (2 ^ 1) [.wrBack 7, .wrBack 8, .rdFront, .wrBack 9, .rdBack] =
        .ok (rp, [none, none, some 7, none, some 9]) ∧ RingShows rp (2 ^ 1) [8] :=
  ⟨by decide, ring_deque (by decide) [.wrBack 7, .wrBack 8, .rdFront, .wrBack 9, .rdBack]⟩

end SlabNodes

end Mepl
