import Mathlib.Data.List.Infix
import Mepl.Alloc.Freelist
import Mepl.Base.Window

namespace Mepl
open Base

/-- What is in r_buf stays there. -/
def dbQueryNodeRingInit (rp : DbQueryNodeRing) : DbQueryNodeRing :=
  { rp with rWr := 0, rRd := 0, rLen := 0 }

inductive QueueOp where
  | put (v : Nat)
  | get
deriving DecidableEq, Repr

/-- One call; the values got so far are kept, in their order. -/
def holdOffCall (SIZE : Nat) (rp : DbQueryNodeRing) (got : List (Option Nat)) :
    QueueOp → Res (DbQueryNodeRing × List (Option Nat))
  | .put v => do
    let rp ← dbQueryNodeRingPut SIZE rp v
    pure (rp, got)
  | .get => do
    let (v, rp) ← dbQueryNodeRingGet SIZE rp
    pure (rp, got ++ [v])

def holdOffRun (SIZE : Nat) (rp : DbQueryNodeRing) (ops : List QueueOp) :
    Res (DbQueryNodeRing × List (Option Nat)) :=
  ops.foldlM (fun s op => holdOffCall SIZE s.1 s.2 op) (dbQueryNodeRingInit rp, [])

/-- The values put, and the number of those got. -/
def queuePuts (ops : List QueueOp) : List Nat :=
  ops.filterMap (fun op => match op with | .put v => some v | .get => none)

def queueGets (ops : List QueueOp) : Nat := ops.countP (· = .get)

/-- A put is made with fewer than SIZE values waiting, a get with one at least. -/
def QueueAllowed (SIZE : Nat) (ops : List QueueOp) : Prop :=
  ∀ pre, pre <+: ops →
    queueGets pre ≤ (queuePuts pre).length ∧ (queuePuts pre).length ≤ queueGets pre + SIZE

instance (SIZE : Nat) (ops : List QueueOp) : Decidable (QueueAllowed SIZE ops) :=
  decidable_of_iff (∀ pre ∈ ops.inits, queueGets pre ≤ (queuePuts pre).length ∧
    (queuePuts pre).length ≤ queueGets pre + SIZE) (by simp [QueueAllowed])

/-- What the ring says of itself after these calls. -/
structure RingRight (SIZE : Nat) (rp : DbQueryNodeRing) (ops : List QueueOp) : Prop where
  empty : dbQueryNodeRingEmpty rp = true ↔ queueGets ops = (queuePuts ops).length
  full : dbQueryNodeRingFull SIZE rp = true ↔ (queuePuts ops).length = queueGets ops + SIZE
  len : rp.rLen ≤ SIZE

/-- The run returns with the values in the order they were put, and the ring
says what is so. -/
def QueueKept (SIZE : Nat) (rp : DbQueryNodeRing) (ops : List QueueOp) : Prop :=
  ∃ rp', holdOffRun SIZE rp ops =
    .ok (rp', ((queuePuts ops).take (queueGets ops)).map some) ∧ RingRight SIZE rp' ops

/-- The values put and not got yet are in the buffer, from r_rd to r_wr. -/
structure QueueHolds (SIZE : Nat) (rp : DbQueryNodeRing) (ops : List QueueOp) : Prop where
  window : Window rp.rBuf rp.rRd ((queuePuts ops).drop (queueGets ops))
  cells : rp.rBuf.length = SIZE
  rd : rp.rRd < SIZE
  wr : rp.rWr = (rp.rRd + ((queuePuts ops).length - queueGets ops)) % SIZE

section
variable {rp : DbQueryNodeRing} {ops : List QueueOp} {k : Nat}

theorem ring_inc (p k : Nat) : ringInc p (2 ^ k) = (p + 1) % 2 ^ k :=
  Nat.and_two_pow_sub_one_eq_mod (p + 1) k

@[simp] theorem queue_puts_put (ops : List QueueOp) (v : Nat) :
    queuePuts (ops ++ [.put v]) = queuePuts ops ++ [v] := by
  simp [queuePuts]

@[simp] theorem queue_puts_get (ops : List QueueOp) :
    queuePuts (ops ++ [.get]) = queuePuts ops := by
  simp [queuePuts]

@[simp] theorem queue_gets_put (ops : List QueueOp) (v : Nat) :
    queueGets (ops ++ [.put v]) = queueGets ops := by
  simp [queueGets]

@[simp] theorem queue_gets_get (ops : List QueueOp) :
    queueGets (ops ++ [.get]) = queueGets ops + 1 := by
  simp [queueGets]

theorem QueueHolds.put {v : Nat} (h : QueueHolds (2 ^ k) rp ops)
    (hroom : (queuePuts ops).length < queueGets ops + 2 ^ k)
    (hle : queueGets ops ≤ (queuePuts ops).length) :
    ∃ rp', dbQueryNodeRingPut (2 ^ k) rp v = .ok rp' ∧
      QueueHolds (2 ^ k) rp' (ops ++ [.put v]) := by
  have hlt : ((queuePuts ops).drop (queueGets ops)).length < rp.rBuf.length := by
    rw [List.length_drop, h.cells]
    omega
  have hwindow := h.window.snoc hlt v
  rw [h.cells, List.length_drop, ← h.wr] at hwindow
  have hwr : rp.rWr < rp.rBuf.length := by
    rw [h.wr, h.cells]
    exact Nat.mod_lt _ (Nat.two_pow_pos k)
  have hput : dbQueryNodeRingPut (2 ^ k) rp v =
      .ok { rp with rBuf := rp.rBuf.set rp.rWr (some v), rWr := ringInc rp.rWr (2 ^ k) } := by
    rw [dbQueryNodeRingPut, store_lt hwr]
    rfl
  refine ⟨_, hput, ?_, ?_, h.rd, ?_⟩
  · rw [queue_puts_put, queue_gets_put, List.drop_append_of_le_length hle]
    exact hwindow
  · simp [h.cells]
  · simp only [queue_puts_put, queue_gets_put, List.length_append, List.length_singleton, ring_inc,
      h.wr]
    rw [place_succ, Nat.sub_add_comm hle]

theorem QueueHolds.get (h : QueueHolds (2 ^ k) rp ops)
    (hlt : queueGets ops < (queuePuts ops).length) :
    ∃ rp', dbQueryNodeRingGet (2 ^ k) rp = .ok (some (queuePuts ops)[queueGets ops], rp') ∧
      QueueHolds (2 ^ k) rp' (ops ++ [.get]) := by
  have hwindow := h.window
  rw [List.drop_eq_getElem_cons hlt] at hwindow
  have hhead := hwindow.head
  have htail := hwindow.tail
  rw [h.cells, Nat.mod_eq_of_lt h.rd] at hhead
  rw [h.cells, ← ring_inc] at htail
  have hget : dbQueryNodeRingGet (2 ^ k) rp = .ok (some (queuePuts ops)[queueGets ops],
      { rp with rRd := ringInc rp.rRd (2 ^ k), rLen := (rp.rLen + 2 ^ 64 - 1) % 2 ^ 64 }) := by
    rw [dbQueryNodeRingGet, load_some hhead]
    rfl
  refine ⟨_, hget, ?_, h.cells, ?_, ?_⟩
  · rw [queue_puts_get, queue_gets_get]
    exact htail
  · simp only [ring_inc]
    exact Nat.mod_lt _ (Nat.two_pow_pos k)
  · simp only [queue_puts_get, queue_gets_get, ring_inc, h.wr, Nat.mod_add_mod]
    congr 1
    omega

theorem QueueAllowed.of_prefix {SIZE : Nat} {pre : List QueueOp} (h : QueueAllowed SIZE ops)
    (hpre : pre <+: ops) : QueueAllowed SIZE pre :=
  fun pre' hpre' => h pre' (hpre'.trans hpre)

theorem hold_off_run_snoc {SIZE : Nat} {rp₁ : DbQueryNodeRing} {got : List (Option Nat)}
    (h : holdOffRun SIZE rp ops = .ok (rp₁, got)) (op : QueueOp) :
    holdOffRun SIZE rp (ops ++ [op]) = holdOffCall SIZE rp₁ got op := by
  rw [holdOffRun] at h
  rw [holdOffRun, List.foldlM_append, h, ok_bind, List.foldlM_cons]
  exact bind_pure _

/-- Every allowed run returns with the values in the order they were put. -/
theorem hold_off_fifo (hbuf : rp.rBuf.length = 2 ^ k) (hops : QueueAllowed (2 ^ k) ops) :
    ∃ rp', holdOffRun (2 ^ k) rp ops =
        .ok (rp', ((queuePuts ops).take (queueGets ops)).map some) ∧
      QueueHolds (2 ^ k) rp' ops := by
  induction ops using List.reverseRecOn with
  | nil =>
    refine ⟨dbQueryNodeRingInit rp, rfl, window_nil, hbuf, Nat.two_pow_pos k, ?_⟩
    simp [dbQueryNodeRingInit, queuePuts, queueGets]
  | append_singleton ops op ih =>
    obtain ⟨rp₁, hrun, h₁⟩ := ih (hops.of_prefix (List.prefix_append ops [op]))
    obtain ⟨hle, -⟩ := hops ops (List.prefix_append ops [op])
    obtain ⟨hlow, hhigh⟩ := hops _ (List.prefix_refl _)
    rw [hold_off_run_snoc hrun]
    cases op with
    | put v =>
      simp only [queue_puts_put, queue_gets_put, List.length_append, List.length_singleton] at hhigh
      obtain ⟨rp', hput, h'⟩ := h₁.put (v := v) hhigh hle
      refine ⟨rp', ?_, h'⟩
      rw [holdOffCall, hput, queue_puts_put, queue_gets_put, List.take_append_of_le_length hle]
      rfl
    | get =>
      simp only [queue_puts_get, queue_gets_get] at hlow
      obtain ⟨rp', hget, h'⟩ := h₁.get hlow
      refine ⟨rp', ?_, h'⟩
      rw [holdOffCall, hget, queue_puts_get, queue_gets_get, List.take_succ_eq_append_getElem hlow,
        List.map_append]
      rfl

/-- After the first put, the ring says it is empty. -/
theorem first_put_uncounted {v : Nat} : ¬ QueueKept (2 ^ k) rp [.put v] := by
  rintro ⟨rp', hrun, hright⟩
  simp only [holdOffRun, List.foldlM_cons, List.foldlM_nil, holdOffCall, dbQueryNodeRingPut,
    bind_ok] at hrun
  obtain ⟨_, ⟨_, ⟨_, -, hset⟩, hlast⟩, hend⟩ := hrun
  cases hset
  cases hlast
  cases hend
  have hempty := hright.empty.mp rfl
  simp [queueGets, queuePuts] at hempty

/-- The values of an allowed run always come out in the order they went in, and
the ring says what is so after every call exactly when there is no call: the
first has to be a put. -/
theorem hold_off_kept_iff (hbuf : rp.rBuf.length = 2 ^ k) (hops : QueueAllowed (2 ^ k) ops) :
    (∃ rp', holdOffRun (2 ^ k) rp ops =
      .ok (rp', ((queuePuts ops).take (queueGets ops)).map some)) ∧
    ((∀ pre, pre <+: ops → QueueKept (2 ^ k) rp pre) ↔ ops = []) := by
  obtain ⟨rp', hrun, -⟩ := hold_off_fifo hbuf hops
  refine ⟨⟨rp', hrun⟩, ?_, ?_⟩
  · intro hkept
    cases ops with
    | nil => rfl
    | cons op ops =>
      have hfirst : [op] <+: op :: ops := ⟨ops, rfl⟩
      cases op with
      | put v => exact absurd (hkept _ hfirst) first_put_uncounted
      | get => exact absurd (hops _ hfirst).1 (by simp [queueGets, queuePuts])
  · rintro rfl pre hpre
    obtain rfl := List.prefix_nil.mp hpre
    have hpos : 2 ^ k ≠ 0 := Nat.ne_of_gt (Nat.two_pow_pos k)
    refine ⟨dbQueryNodeRingInit rp, rfl, ?_, ?_, Nat.zero_le _⟩
    · simp [dbQueryNodeRingEmpty, dbQueryNodeRingInit, queueGets, queuePuts]
    · simp [dbQueryNodeRingFull, dbQueryNodeRingInit, queueGets, queuePuts, hpos.symm]

end

/-- The ring of two, as it is at the start of the program. -/
def ringOfTwo : DbQueryNodeRing := ⟨0, 0, 0, [none, none]⟩

/-- Two values put and got in turns, and a third that waits. -/
theorem hold_off_kept_iff_turns :
    QueueAllowed (2 ^ 1) [.put 5, .put 7, .get, .put 9, .get] ∧
    (∃ rp', holdOffRun (2 ^ 1) ringOfTwo [.put 5, .put 7, .get, .put 9, .get] =
      .ok (rp', [some 5, some 7])) ∧
    ((∀ pre, pre <+: [.put 5, .put 7, .get, .put 9, .get] →
        QueueKept (2 ^ 1) ringOfTwo pre) ↔
      [QueueOp.put 5, .put 7, .get, .put 9, .get] = []) :=
  have hops : QueueAllowed (2 ^ 1) [.put 5, .put 7, .get, .put 9, .get] := by decide
  ⟨hops, hold_off_kept_iff rfl hops⟩

/-- One value waits, and the ring is empty by its own account. -/
theorem hold_off_put_uncounted : QueueAllowed (2 ^ 1) [.put 5] ∧
    ∃ rp, holdOffRun (2 ^ 1) ringOfTwo [.put 5] = .ok (rp, []) ∧ dbQueryNodeRingEmpty rp = true ∧
      queueGets [.put 5] ≠ (queuePuts [.put 5]).length := by
  refine ⟨by decide, ⟨1, 0, 0, [some 5, none]⟩, rfl, rfl, ?_⟩
  decide

end Mepl
