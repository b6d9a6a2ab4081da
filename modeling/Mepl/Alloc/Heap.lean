import Mathlib.Data.List.Perm.Basic
import Mepl.Base.Dlist
import Mepl.C.Machine

namespace Mepl
open Base

def HEAP_NODE_SIZE : Nat := 1024

def sizeofHeapNode : Nat := 24

/-- A union heap_node *: h_head, or a node at an address. -/
inductive HeapNodePtr where
  | head
  | node (addr : Nat)
deriving DecidableEq, Repr

/-- The heap with its nodes, and the program break. -/
structure Heap where
  links : Links HeapNodePtr
  size : HeapNodePtr → Nat
  count : Nat
  brk : Nat

def heapNodeInit (hp : Heap) (hnp : HeapNodePtr) : Heap :=
  { hp with
    size := Function.update hp.size hnp HEAP_NODE_SIZE
    links := hp.links.init hnp }

/-- heap_grow: sbrk() returns the break it moves. -/
def heapGrow (hp : Heap) (amt : Nat) : Nat × Heap := (hp.brk, { hp with brk := hp.brk + amt })

def heapNodeNew (hp : Heap) : HeapNodePtr × Heap :=
  let (p, hp) := heapGrow hp HEAP_NODE_SIZE
  (.node p, heapNodeInit hp (.node p))

def heapInit (hp : Heap) : Heap := { heapNodeInit hp .head with count := 0 }

def heapNodeAdd (hp : Heap) (hnp : HeapNodePtr) : Heap :=
  { hp with links := hp.links.addAfter .head hnp }

def heapNodeRm (hp : Heap) (hnp : HeapNodePtr) : Heap := { hp with links := hp.links.rm hnp }

/-- heap_get; `hnp + 1` is behind the header. A list longer than all the nodes
would never end. -/
def heapGet (hp : Heap) (size : Nat) : Res (Heap × Nat) := do
  let hnp ← hp.links.search .head (fun hnp => pure (decide (hp.size hnp ≥ size))) .fuel
    (hp.count + 1) (hp.links.next .head)
  match hnp with
  | .head =>
    let (hnp, hp) := heapNodeNew hp
    let hp := heapNodeAdd hp hnp
    let hp := { hp with count := hp.count + 1 }
    match hnp with
    | .head => .error .fault
    | .node addr => pure (heapNodeRm hp hnp, addr + sizeofHeapNode)
  | .node addr => pure (heapNodeRm hp (.node addr), addr + sizeofHeapNode)

def heapPut (hp : Heap) (p : Nat) : Heap := heapNodeAdd hp (.node (p - sizeofHeapNode))

/-- What heap_get was asked for, and where it is. -/
structure Block where
  ptr : Nat
  size : Nat
deriving DecidableEq, Repr

/-- The states of all runs after heap_init, with the live blocks. -/
inductive HeapRuns (start : Heap) : Heap → List Block → Prop
  | init : HeapRuns start (heapInit start) []
  | get {hp hp' : Heap} {live : List Block} {size p : Nat} (run : HeapRuns start hp live)
      (call : heapGet hp size = .ok (hp', p)) : HeapRuns start hp' (⟨p, size⟩ :: live)
  | put {hp : Heap} {live : List Block} {b : Block} (run : HeapRuns start hp live)
      (owned : b ∈ live) : HeapRuns start (heapPut hp b.ptr) (live.erase b)

/-- The i-th node obtained. -/
def nodeAddr (brk i : Nat) : Nat := brk + i * HEAP_NODE_SIZE

/-- No byte is in both of two places. -/
def BytesApart (p n q m : Nat) : Prop := p + n ≤ q ∨ q + m ≤ p

/-- Every live block is inside its node, and apart from the header of every
node and from the other live blocks. -/
structure Enough (brk : Nat) (hp : Heap) (live : List Block) : Prop where
  fits : ∀ b ∈ live, ∃ i < hp.count, b.ptr = nodeAddr brk i + sizeofHeapNode ∧
    b.ptr + b.size ≤ nodeAddr brk i + HEAP_NODE_SIZE
  headers : ∀ b ∈ live, ∀ i < hp.count, BytesApart b.ptr b.size (nodeAddr brk i) sizeofHeapNode
  apart : live.Pairwise (fun b c => BytesApart b.ptr b.size c.ptr c.size)

/-- The nodes that a call has obtained: sbrk() has moved the break. -/
def obtained (hp hp' : Heap) : List Nat := if hp'.brk = hp.brk then [] else [hp.brk]

/-- What every call keeps: every node obtained is on the list or behind one
live block, and they are apart. -/
structure NodesInv (hp : Heap) (live : List Block) (free grown : List Nat) : Prop where
  ring : hp.links.Ring .head (free.map .node)
  nodes : (free.map (· + sizeofHeapNode) ++ live.map Block.ptr).Perm
    (grown.map (· + sizeofHeapNode))
  apart : grown.Pairwise (fun a c => BytesApart a HEAP_NODE_SIZE c HEAP_NODE_SIZE)
  below : ∀ a ∈ grown, a + HEAP_NODE_SIZE ≤ hp.brk
  count : hp.count = grown.length
  room : grown.length * HEAP_NODE_SIZE ≤ hp.brk

section
variable {hp hp' : Heap} {live : List Block} {free grown : List Nat}

theorem obtained_grown (h : hp'.brk = hp.brk + HEAP_NODE_SIZE) : obtained hp hp' = [hp.brk] := by
  apply if_neg
  simp [h, HEAP_NODE_SIZE]

theorem obtained_none (h : hp'.brk = hp.brk) : obtained hp hp' = [] := if_pos h

theorem NodesInv.distinct (h : NodesInv hp live free grown) : grown.Nodup := by
  refine h.apart.imp (fun {a c} hac he => ?_)
  simp only [BytesApart, HEAP_NODE_SIZE] at hac
  omega

theorem NodesInv.nodup (h : NodesInv hp live free grown) :
    (free.map (· + sizeofHeapNode) ++ live.map Block.ptr).Nodup := by
  rw [h.nodes.nodup_iff]
  exact h.distinct.map (fun a c hac => Nat.add_right_cancel hac)

theorem NodesInv.block (h : NodesInv hp live free grown) {p : Nat}
    (hp' : p ∈ free.map (· + sizeofHeapNode) ∨ p ∈ live.map Block.ptr) :
    ∃ a ∈ grown, p = a + sizeofHeapNode := by
  have hmem := h.nodes.mem_iff.mp (List.mem_append.mpr hp')
  obtain ⟨a, ha, he⟩ := List.mem_map.mp hmem
  exact ⟨a, ha, he.symm⟩

theorem NodesInv.free_grown (h : NodesInv hp live free grown) {a : Nat} (ha : a ∈ free) :
    a ∈ grown := by
  obtain ⟨c, hc, he⟩ := h.block (Or.inl (List.mem_map_of_mem ha))
  rwa [Nat.add_right_cancel he]

theorem NodesInv.length_le (h : NodesInv hp live free grown) : free.length ≤ hp.count := by
  have hlen := h.nodes.length_eq
  simp only [List.length_append, List.length_map] at hlen
  rw [h.count]
  omega

theorem nodes_inv_init (start : Heap) : NodesInv (heapInit start) [] [] [] where
  ring := Links.ring_init start.links .head
  nodes := List.Perm.refl _
  apart := List.Pairwise.nil
  below := by simp
  count := rfl
  room := Nat.zero_le _

theorem node_not_mem {a : Nat} (ha : a ∉ free) :
    HeapNodePtr.node a ∉ HeapNodePtr.head :: free.map .node := by
  simpa using ha

/-- heap_get takes a node off the list, or one that was never on it. -/
theorem NodesInv.get (h : NodesInv hp live free grown) (size : Nat) :
    ∃ hp' p free', heapGet hp size = .ok (hp', p) ∧
      NodesInv hp' (⟨p, size⟩ :: live) free' (obtained hp hp' ++ grown) ∧
      hp'.brk = hp.brk + (obtained hp hp').length * HEAP_NODE_SIZE := by
  have hfuel : (free.map HeapNodePtr.node).length < hp.count + 1 := by
    rw [List.length_map]
    exact Nat.lt_succ_of_le h.length_le
  have htest : ∀ x ∈ free.map HeapNodePtr.node,
      (pure (decide (hp.size x ≥ size)) : Res Bool) = .ok (decide (hp.size x ≥ size)) :=
    fun _ _ => rfl
  rw [heapGet, h.ring.search htest hfuel, ok_bind]
  cases hfind : (free.map HeapNodePtr.node).find? (fun hnp => decide (hp.size hnp ≥ size)) with
  | none =>
    have hnew : HeapNodePtr.node hp.brk ∉ HeapNodePtr.head :: free.map .node := by
      apply node_not_mem
      intro hin
      have hle := h.below _ (h.free_grown hin)
      simp only [HEAP_NODE_SIZE] at hle
      omega
    have hring := h.ring.init_other hnew
    have hring' := (hring.addAfter hnew).rm List.mem_cons_self
    rw [List.erase_cons_head] at hring'
    refine ⟨_, _, free, rfl, ?_, ?_⟩
    · rw [obtained_grown rfl, List.singleton_append]
      refine ⟨hring', ?_, ?_, ?_, ?_, ?_⟩
      · exact List.perm_middle.trans (h.nodes.cons _)
      · exact List.pairwise_cons.mpr ⟨fun a ha => Or.inr (h.below a ha), h.apart⟩
      · intro a ha
        rcases List.mem_cons.mp ha with rfl | ha
        · exact Nat.le_refl _
        · exact Nat.le_add_right_of_le (h.below a ha)
      · exact congrArg (· + 1) h.count
      · rw [List.length_cons, Nat.succ_mul]
        exact Nat.add_le_add_right h.room HEAP_NODE_SIZE
    · rw [obtained_grown rfl, List.length_singleton, Nat.one_mul]
      rfl
  | some hnp =>
    obtain ⟨a, ha, rfl⟩ := List.mem_map.mp (List.mem_of_find?_eq_some hfind)
    have hring := h.ring.rm (List.mem_map_of_mem ha)
    rw [← List.map_erase (fun _ _ he => HeapNodePtr.node.inj he)] at hring
    have hnone : obtained hp (heapNodeRm hp (.node a)) = [] := obtained_none rfl
    refine ⟨_, _, free.erase a, rfl, ?_, ?_⟩
    · rw [hnone, List.nil_append]
      refine ⟨hring, ?_, h.apart, h.below, h.count, h.room⟩
      have hfree := (List.perm_cons_erase ha).map (· + sizeofHeapNode)
      exact List.perm_middle.trans ((hfree.symm.append_right (live.map Block.ptr)).trans h.nodes)
    · rw [hnone, List.length_nil, Nat.zero_mul]
      rfl

theorem NodesInv.put (h : NodesInv hp live free grown) {b : Block} (hb : b ∈ live) :
    ∃ free', NodesInv (heapPut hp b.ptr) (live.erase b) free' grown := by
  have hmem := List.mem_map_of_mem (f := Block.ptr) hb
  obtain ⟨a, -, he⟩ := h.block (Or.inr hmem)
  have haddr : b.ptr - sizeofHeapNode = a := by omega
  have hnew : HeapNodePtr.node a ∉ HeapNodePtr.head :: free.map .node := by
    apply node_not_mem
    intro hin
    have hin' := List.mem_map_of_mem (f := (· + sizeofHeapNode)) hin
    exact (List.nodup_append.mp h.nodup).2.2 _ hin' _ hmem he.symm
  refine ⟨a :: free, ?_, ?_, h.apart, h.below, h.count, h.room⟩
  · rw [heapPut, haddr]
    exact h.ring.addAfter hnew
  · have hlive := (List.perm_cons_erase hb).map Block.ptr
    rw [List.map_cons, ← he, List.cons_append]
    exact List.perm_middle.symm.trans ((hlive.symm.append_left _).trans h.nodes)

end

/-- What a run keeps: every node obtained is on the list or behind one live
block. -/
structure HeapInv (brk : Nat) (hp : Heap) (live : List Block) (free : List Nat) : Prop where
  ring : hp.links.Ring .head (free.map .node)
  nodes : (free.map (· + sizeofHeapNode) ++ live.map Block.ptr).Perm
    ((List.range hp.count).map (fun i => nodeAddr brk i + sizeofHeapNode))
  brk : hp.brk = nodeAddr brk hp.count

section
variable {brk : Nat} {hp : Heap} {live : List Block} {free : List Nat}

/-- The nodes lie one behind the other. -/
theorem nodes_inv_iff : HeapInv brk hp live free ↔ hp.brk = nodeAddr brk hp.count ∧
    NodesInv hp live free ((List.range hp.count).map (nodeAddr brk)) := by
  have hmap : ((List.range hp.count).map (nodeAddr brk)).map (· + sizeofHeapNode) =
      (List.range hp.count).map (fun i => nodeAddr brk i + sizeofHeapNode) := List.map_map
  constructor
  · intro h
    refine ⟨h.brk, h.ring, hmap ▸ h.nodes, ?_, ?_, by simp, ?_⟩
    · rw [List.pairwise_map]
      refine List.pairwise_lt_range.imp (fun {i j} hij => ?_)
      simp only [BytesApart, nodeAddr, HEAP_NODE_SIZE]
      omega
    · intro a ha
      obtain ⟨i, hi, rfl⟩ := List.mem_map.mp ha
      have hlt := List.mem_range.mp hi
      rw [h.brk]
      simp only [nodeAddr, HEAP_NODE_SIZE]
      omega
    · rw [h.brk, nodeAddr, List.length_map, List.length_range]
      exact Nat.le_add_left _ _
  · rintro ⟨hbrk, h⟩
    exact ⟨h.ring, hmap ▸ h.nodes, hbrk⟩

theorem HeapInv.nodup (h : HeapInv brk hp live free) :
    (free.map (· + sizeofHeapNode) ++ live.map Block.ptr).Nodup :=
  (nodes_inv_iff.mp h).2.nodup

theorem HeapInv.block (h : HeapInv brk hp live free) {p : Nat}
    (hp' : p ∈ free.map (· + sizeofHeapNode) ∨ p ∈ live.map Block.ptr) :
    ∃ i < hp.count, p = nodeAddr brk i + sizeofHeapNode := by
  obtain ⟨a, ha, he⟩ := (nodes_inv_iff.mp h).2.block hp'
  obtain ⟨i, hi, rfl⟩ := List.mem_map.mp ha
  exact ⟨i, List.mem_range.mp hi, he⟩

theorem heap_inv_init (start : Heap) : HeapInv start.brk (heapInit start) [] [] :=
  nodes_inv_iff.mpr ⟨by simp [heapInit, heapNodeInit, nodeAddr], nodes_inv_init start⟩

theorem HeapInv.get (h : HeapInv brk hp live free) (size : Nat) :
    ∃ hp' p free', heapGet hp size = .ok (hp', p) ∧ HeapInv brk hp' (⟨p, size⟩ :: live) free' := by
  obtain ⟨hbrk, hinv⟩ := nodes_inv_iff.mp h
  obtain ⟨hp', p, free', hrun, hinv', hbrk'⟩ := hinv.get size
  have hcount : hp'.count = (obtained hp hp').length + hp.count := by simp [hinv'.count]
  refine ⟨hp', p, free', hrun, hinv'.ring, hinv'.nodes.trans ?_, ?_⟩
  · rw [hcount]
    unfold obtained
    split
    · simp [List.map_map, Function.comp_def]
    · simp only [hbrk, List.singleton_append, List.length_singleton, Nat.add_comm 1,
        List.range_succ, List.map_cons, List.map_append, List.map_map]
      exact (List.perm_append_singleton _ _).symm
  · rw [hbrk', hcount, hbrk]
    simp only [nodeAddr, Nat.add_mul]
    omega

theorem HeapInv.put (h : HeapInv brk hp live free) {b : Block} (hb : b ∈ live) :
    ∃ free', HeapInv brk (heapPut hp b.ptr) (live.erase b) free' := by
  obtain ⟨hbrk, hinv⟩ := nodes_inv_iff.mp h
  obtain ⟨free', hinv'⟩ := hinv.put hb
  exact ⟨free', nodes_inv_iff.mpr ⟨hbrk, hinv'⟩⟩

theorem heap_runs_inv {start : Heap} (h : HeapRuns start hp live) :
    ∃ free, HeapInv start.brk hp live free := by
  induction h with
  | init => exact ⟨[], heap_inv_init start⟩
  | @get hp hp' live size p run call ih =>
    obtain ⟨free, hinv⟩ := ih
    obtain ⟨hp₁, p₁, free₁, hrun, hinv₁⟩ := hinv.get size
    rw [hrun] at call
    cases call
    exact ⟨free₁, hinv₁⟩
  | put run owned ih =>
    obtain ⟨free, hinv⟩ := ih
    exact hinv.put owned

theorem HeapInv.enough (h : HeapInv brk hp live free)
    (hsize : ∀ b ∈ live, b.size + sizeofHeapNode ≤ HEAP_NODE_SIZE) : Enough brk hp live := by
  have hblock : ∀ b ∈ live, ∃ i < hp.count, b.ptr = nodeAddr brk i + sizeofHeapNode :=
    fun b hb => h.block (Or.inr (List.mem_map_of_mem hb))
  simp only [nodeAddr, sizeofHeapNode, HEAP_NODE_SIZE] at hblock hsize
  constructor
  · intro b hb
    obtain ⟨i, hi, he⟩ := hblock b hb
    have := hsize b hb
    refine ⟨i, hi, he, ?_⟩
    simp only [nodeAddr, HEAP_NODE_SIZE]
    omega
  · intro b hb j hj
    obtain ⟨i, hi, he⟩ := hblock b hb
    have := hsize b hb
    simp only [BytesApart, nodeAddr, sizeofHeapNode, HEAP_NODE_SIZE]
    omega
  · have hne := List.pairwise_map.mp (List.nodup_append.mp h.nodup).2.1
    refine hne.imp_of_mem (fun {b c} hb hc hbc => ?_)
    obtain ⟨i, hi, hbi⟩ := hblock b hb
    obtain ⟨j, hj, hcj⟩ := hblock c hc
    have := hsize b hb
    have := hsize c hc
    simp only [BytesApart]
    omega

/-- After any run heap_get returns, and the live blocks are big enough exactly
when none is bigger than a node without its header. -/
theorem heap_get_enough_iff {start : Heap} (h : HeapRuns start hp live) :
    (∀ size, ∃ r, heapGet hp size = .ok r) ∧ (Enough start.brk hp live ↔
      ∀ b ∈ live, b.size + sizeofHeapNode ≤ HEAP_NODE_SIZE) := by
  obtain ⟨free, hinv⟩ := heap_runs_inv h
  refine ⟨fun size => ?_, ?_, hinv.enough⟩
  · obtain ⟨hp', p, -, hrun, -⟩ := hinv.get size
    exact ⟨_, hrun⟩
  · intro henough b hb
    obtain ⟨i, -, hptr, hend⟩ := henough.fits b hb
    omega

end

/-- A heap before heap_init, with the break at 0. -/
def heapStart : Heap := ⟨⟨id, id⟩, fun _ => 0, 0, 0⟩

theorem heap_get_enough_text : ∃ hp, HeapRuns heapStart hp [⟨24, 64⟩] ∧
    Enough heapStart.brk hp [⟨24, 64⟩] := by
  have hrun : HeapRuns heapStart _ [⟨24, 64⟩] := .get .init rfl
  exact ⟨_, hrun, (heap_get_enough_iff hrun).2.mpr (by decide)⟩

/-- One byte more than a node holds behind its header. -/
theorem heap_get_too_big : ∃ hp, HeapRuns heapStart hp [⟨24, 1001⟩] ∧
    ¬ Enough heapStart.brk hp [⟨24, 1001⟩] := by
  refine ⟨_, .get .init rfl, fun h => ?_⟩
  obtain ⟨i, -, hptr, hend⟩ := h.fits _ (List.mem_singleton_self _)
  simp only [HEAP_NODE_SIZE, sizeofHeapNode] at hptr hend
  omega

end Mepl
