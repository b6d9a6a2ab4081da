import Mathlib.Data.List.Count
import Mathlib.Data.List.Pairwise
import Mepl.Alloc.Heap

namespace Mepl
open Base

def heapShrink (hp : Heap) (amt : Nat) : Heap := { hp with brk := hp.brk - amt }

def heapFree (hp : Heap) : Heap := heapShrink hp (hp.count * HEAP_NODE_SIZE)

/-- What heap_get hands out, whatever size it was asked for: the 1000 bytes of
a node behind its header. -/
def HEAP_BLOCK_SIZE : Nat := HEAP_NODE_SIZE - sizeofHeapNode

/-- The n bytes at p are bytes of the block at ptr. -/
def InBlock (ptr p n : Nat) : Prop := ptr ≤ p ∧ p + n ≤ ptr + HEAP_BLOCK_SIZE

/-- The n bytes at p are written to. Of a node at a, hn_next, hn_prev and
hn_size are at a, a + 8 and a + 16; struct heap is not in the memory of sbrk(). -/
structure Wrote (p n : Nat) (hp hp' : Heap) : Prop where
  next : ∀ a, BytesApart p n a 8 → hp'.links.next (.node a) = hp.links.next (.node a)
  prev : ∀ a, BytesApart p n (a + 8) 8 → hp'.links.prev (.node a) = hp.links.prev (.node a)
  size : ∀ a, BytesApart p n (a + 16) 8 → hp'.size (.node a) = hp.size (.node a)
  nextHead : hp'.links.next .head = hp.links.next .head
  prevHead : hp'.links.prev .head = hp.links.prev .head
  sizeHead : hp'.size .head = hp.size .head
  count : hp'.count = hp.count
  brk : hp'.brk = hp.brk

/-- The states of all runs after heap_init, with the live blocks and the nodes
obtained. A caller may write to all of HEAP_BLOCK_SIZE bytes of its block. -/
inductive HeapCalls (start : Heap) : Heap → List Block → List Nat → Prop
  | init : HeapCalls start (heapInit start) [] []
  | get {hp hp' : Heap} {live : List Block} {grown : List Nat} {size p : Nat}
      (run : HeapCalls start hp live grown) (call : heapGet hp size = .ok (hp', p)) :
      HeapCalls start hp' (⟨p, size⟩ :: live) (obtained hp hp' ++ grown)
  | put {hp : Heap} {live : List Block} {grown : List Nat} {b : Block}
      (run : HeapCalls start hp live grown) (owned : b ∈ live) :
      HeapCalls start (heapPut hp b.ptr) (live.erase b) grown
  | write {hp hp' : Heap} {live : List Block} {grown : List Nat} {b : Block} {p n : Nat}
      (run : HeapCalls start hp live grown) (owned : b ∈ live)
      (inside : InBlock b.ptr p n) (wrote : Wrote p n hp hp') : HeapCalls start hp' live grown
  | sbrk {hp : Heap} {live : List Block} {grown : List Nat} (run : HeapCalls start hp live grown)
      (amt : Nat) : HeapCalls start { hp with brk := hp.brk + amt } live grown

/-- Every node obtained is on the list once or behind one live pointer, and
heap_free gives back what they took. -/
structure NodesKept (hp : Heap) (live : List Block) (grown : List Nat) : Prop where
  distinct : grown.Nodup
  list : ∃ free : List Nat, hp.links.Ring .head (free.map .node) ∧ (∀ a ∈ free, a ∈ grown) ∧
    ∀ a ∈ grown, free.count a + live.countP (fun b => b.ptr = a + sizeofHeapNode) = 1
  live : ∀ b ∈ live, ∃ a ∈ grown, b.ptr = a + sizeofHeapNode
  count : hp.count = grown.length
  freed : (heapFree hp).brk + grown.length * HEAP_NODE_SIZE = hp.brk

section
variable {hp hp' : Heap} {live : List Block} {free grown : List Nat}

theorem in_block_iff {a p n : Nat} : InBlock (a + sizeofHeapNode) p n ↔
    a + sizeofHeapNode ≤ p ∧ p + n ≤ a + HEAP_NODE_SIZE := by
  have hend : a + sizeofHeapNode + HEAP_BLOCK_SIZE = a + HEAP_NODE_SIZE := rfl
  rw [InBlock, hend]

/-- The header of every node is apart from the bytes behind another header, or
its own. -/
theorem NodesInv.header_apart (h : NodesInv hp live free grown) {a c p n : Nat} (ha : a ∈ grown)
    (hc : c ∈ grown) (hin : InBlock (a + sizeofHeapNode) p n) :
    BytesApart p n c sizeofHeapNode := by
  obtain ⟨hlow, hhigh⟩ := in_block_iff.mp hin
  simp only [HEAP_NODE_SIZE, sizeofHeapNode] at hlow hhigh
  by_cases hac : a = c
  · subst hac
    simp only [BytesApart, sizeofHeapNode]
    omega
  · have hsymm : Std.Symm (fun a c => BytesApart a HEAP_NODE_SIZE c HEAP_NODE_SIZE) :=
      ⟨fun _ _ => Or.symm⟩
    have hapart := h.apart.forall ha hc hac
    simp only [BytesApart, HEAP_NODE_SIZE, sizeofHeapNode] at hapart ⊢
    omega

/-- What a caller writes to its block leaves all headers as they were. -/
theorem NodesInv.write (h : NodesInv hp live free grown) {b : Block} {p n : Nat} (hb : b ∈ live)
    (hin : InBlock b.ptr p n) (hwrote : Wrote p n hp hp') : NodesInv hp' live free grown := by
  obtain ⟨a, ha, he⟩ := h.block (Or.inr (List.mem_map_of_mem hb))
  rw [he] at hin
  have happly : ∀ c ∈ free, BytesApart p n c sizeofHeapNode :=
    fun c hc => h.header_apart ha (h.free_grown hc) hin
  refine ⟨h.ring.congr ?_ ?_, h.nodes, h.apart, ?_, hwrote.count.trans h.count, ?_⟩
  · intro x hx
    rcases List.mem_cons.mp hx with rfl | hx
    · exact hwrote.nextHead
    · obtain ⟨c, hc, rfl⟩ := List.mem_map.mp hx
      apply hwrote.next
      have hapart := happly c hc
      simp only [BytesApart, sizeofHeapNode] at hapart ⊢
      omega
  · intro x hx
    rcases List.mem_cons.mp hx with rfl | hx
    · exact hwrote.prevHead
    · obtain ⟨c, hc, rfl⟩ := List.mem_map.mp hx
      apply hwrote.prev
      have hapart := happly c hc
      simp only [BytesApart, sizeofHeapNode] at hapart ⊢
      omega
  · rw [hwrote.brk]
    exact h.below
  · rw [hwrote.brk]
    exact h.room

theorem NodesInv.sbrk (h : NodesInv hp live free grown) (amt : Nat) :
    NodesInv { hp with brk := hp.brk + amt } live free grown where
  ring := h.ring
  nodes := h.nodes
  apart := h.apart
  below := fun a ha => Nat.le_add_right_of_le (h.below a ha)
  count := h.count
  room := Nat.le_add_right_of_le h.room

theorem heap_calls_inv {start : Heap} (h : HeapCalls start hp live grown) :
    ∃ free, NodesInv hp live free grown := by
  induction h with
  | init => exact ⟨[], nodes_inv_init start⟩
  | @get hp hp' live grown size p run call ih =>
    obtain ⟨free, hinv⟩ := ih
    obtain ⟨hp₁, p₁, free₁, hrun, hinv₁, -⟩ := hinv.get size
    rw [hrun] at call
    cases call
    exact ⟨free₁, hinv₁⟩
  | put run owned ih =>
    obtain ⟨free, hinv⟩ := ih
    exact hinv.put owned
  | write run owned inside wrote ih =>
    obtain ⟨free, hinv⟩ := ih
    exact ⟨free, hinv.write owned inside wrote⟩
  | sbrk run amt ih =>
    obtain ⟨free, hinv⟩ := ih
    exact ⟨free, hinv.sbrk amt⟩

theorem NodesInv.kept (h : NodesInv hp live free grown) : NodesKept hp live grown := by
  refine ⟨h.distinct, ⟨free, h.ring, fun a ha => h.free_grown ha, ?_⟩, ?_, h.count, ?_⟩
  · intro a ha
    have hinj : Function.Injective (· + sizeofHeapNode) := fun _ _ => Nat.add_right_cancel
    have hone := h.nodes.count_eq (a + sizeofHeapNode)
    rw [List.count_append, List.count_map_of_injective _ _ hinj,
      List.count_map_of_injective _ _ hinj, h.distinct.count, if_pos ha] at hone
    rw [← hone, List.count_eq_countP (l := live.map Block.ptr), List.countP_map]
    rfl
  · intro b hb
    exact h.block (Or.inr (List.mem_map_of_mem hb))
  · rw [heapFree, heapShrink, h.count]
    exact Nat.sub_add_cancel h.room

/-- After any run heap_get returns, and the nodes obtained are all kept. -/
theorem heap_nodes_kept {start : Heap} (h : HeapCalls start hp live grown) :
    (∀ size, ∃ r, heapGet hp size = .ok r) ∧ NodesKept hp live grown := by
  obtain ⟨free, hinv⟩ := heap_calls_inv h
  refine ⟨fun size => ?_, hinv.kept⟩
  obtain ⟨hp', p, -, hrun, -⟩ := hinv.get size
  exact ⟨_, hrun⟩

end

/-- A block got and written to. -/
theorem heap_nodes_kept_text : ∃ hp, HeapCalls heapStart hp [⟨24, 64⟩] [0] ∧
    (∀ size, ∃ r, heapGet hp size = .ok r) ∧ NodesKept hp [⟨24, 64⟩] [0] := by
  have hget : HeapCalls heapStart _ [⟨24, 64⟩] [0] := .get .init rfl
  have hwrite : HeapCalls heapStart _ [⟨24, 64⟩] [0] :=
    .write (p := 24) (n := 12) hget (List.mem_singleton_self _) ⟨by decide, by decide⟩
      ⟨fun _ _ => rfl, fun _ _ => rfl, fun _ _ => rfl, rfl, rfl, rfl, rfl, rfl⟩
  exact ⟨_, hwrite, heap_nodes_kept hwrite⟩

end Mepl
