import Mepl.Alloc.HeapNodes

namespace Mepl
open Base

/-- The states of all runs after heap_init in which no request is bigger than
a node, with the live blocks and the most there were of them at a time. A block
is HEAP_BLOCK_SIZE bytes, whatever was asked for. -/
inductive HeapPeaks (start : Heap) : Heap → List Block → Nat → Prop
  | init : HeapPeaks start (heapInit start) [] 0
  | get {hp hp' : Heap} {live : List Block} {peak size p : Nat} (run : HeapPeaks start hp live peak)
      (small : size ≤ HEAP_NODE_SIZE) (call : heapGet hp size = .ok (hp', p)) :
      HeapPeaks start hp' (⟨p, size⟩ :: live) (max peak (live.length + 1))
  | put {hp : Heap} {live : List Block} {peak : Nat} {b : Block}
      (run : HeapPeaks start hp live peak) (owned : b ∈ live) :
      HeapPeaks start (heapPut hp b.ptr) (live.erase b) peak
  | write {hp hp' : Heap} {live : List Block} {peak p n : Nat} {b : Block}
      (run : HeapPeaks start hp live peak) (owned : b ∈ live) (inside : InBlock b.ptr p n)
      (wrote : Wrote p n hp hp') : HeapPeaks start hp' live peak

/-- Every node obtained has the size that heap_node_init gave it. -/
def Sized (brk : Nat) (hp : Heap) : Prop :=
  ∀ i < hp.count, hp.size (.node (nodeAddr brk i)) = HEAP_NODE_SIZE

section
variable {brk a size p : Nat} {hp hp' : Heap} {live : List Block} {free : List Nat}

theorem HeapInv.length_eq (h : HeapInv brk hp live free) :
    free.length + live.length = hp.count := by
  have hlen := h.nodes.length_eq
  simpa using hlen

/-- The first node on the list is handed out if it is big enough. -/
theorem heap_get_first (hnext : hp.links.next .head = .node a) (hsize : size ≤ hp.size (.node a)) :
    heapGet hp size = .ok (heapNodeRm hp (.node a), a + sizeofHeapNode) := by
  simp [heapGet, hnext, Links.search, hsize]

/-- With no node on the list there is a new one. -/
theorem heap_get_grow (h : hp.links.Ring .head []) (size : Nat) : ∃ hp',
    heapGet hp size = .ok (hp', hp.brk + sizeofHeapNode) ∧ hp'.count = hp.count + 1 ∧
      hp'.size = Function.update hp.size (.node hp.brk) HEAP_NODE_SIZE := by
  have hnext : hp.links.next .head = .head := h.path.1
  let hp₁ := heapNodeAdd (heapNodeNew hp).2 (.node hp.brk)
  refine ⟨heapNodeRm { hp₁ with count := hp₁.count + 1 } (.node hp.brk), ?_, rfl, rfl⟩
  simp only [heapGet, hnext, Links.search, ↓reduceIte, pure_ok, ok_bind]
  rfl

theorem node_addr_inj {i j : Nat} (h : nodeAddr brk i = nodeAddr brk j) : i = j := by
  simp only [nodeAddr, HEAP_NODE_SIZE] at h
  omega

/-- A node comes from the list while there is one, and from sbrk() only then. -/
theorem HeapInv.get_small (h : HeapInv brk hp live free) (hsized : Sized brk hp)
    (hsmall : size ≤ HEAP_NODE_SIZE) (call : heapGet hp size = .ok (hp', p)) :
    Sized brk hp' ∧ hp'.count = max hp.count (live.length + 1) := by
  have hlen := h.length_eq
  cases free with
  | nil =>
    obtain ⟨hp₁, hrun, hcount, hsize⟩ := heap_get_grow h.ring size
    cases call.symm.trans hrun
    rw [List.length_nil] at hlen
    refine ⟨fun i hi => ?_, by omega⟩
    rw [hsize, h.brk]
    by_cases he : i = hp.count
    · rw [he, Function.update_self]
    · have hne : HeapNodePtr.node (nodeAddr brk i) ≠ .node (nodeAddr brk hp.count) :=
        fun hn => he (node_addr_inj (HeapNodePtr.node.inj hn))
      rw [Function.update_of_ne hne]
      exact hsized i (by omega)
  | cons a free =>
    obtain ⟨i, hi, he⟩ := h.block (Or.inl (List.mem_map_of_mem List.mem_cons_self))
    have hbig : size ≤ hp.size (.node a) := by
      rw [Nat.add_right_cancel he, hsized i hi]
      exact hsmall
    cases call.symm.trans (heap_get_first h.ring.path.1 hbig)
    rw [List.length_cons] at hlen
    have hcount : (heapNodeRm hp (.node a)).count = hp.count := rfl
    exact ⟨hsized, by omega⟩

theorem HeapInv.write {b : Block} {n : Nat} (h : HeapInv brk hp live free) (hsized : Sized brk hp)
    (hb : b ∈ live) (hin : InBlock b.ptr p n) (hwrote : Wrote p n hp hp') :
    HeapInv brk hp' live free ∧ Sized brk hp' := by
  obtain ⟨hbrk, hinv⟩ := nodes_inv_iff.mp h
  refine ⟨nodes_inv_iff.mpr ⟨?_, ?_⟩, fun i hi => ?_⟩
  · rw [hwrote.brk, hwrote.count]
    exact hbrk
  · rw [hwrote.count]
    exact hinv.write hb hin hwrote
  · rw [hwrote.count] at hi
    obtain ⟨a, ha, he⟩ := hinv.block (Or.inr (List.mem_map_of_mem hb))
    rw [he] at hin
    have hapart := hinv.header_apart ha (List.mem_map_of_mem (List.mem_range.mpr hi)) hin
    rw [hwrote.size, hsized i hi]
    simp only [BytesApart, sizeofHeapNode] at hapart ⊢
    omega

/-- What a run of requests that fit keeps. -/
structure PeakInv (brk : Nat) (hp : Heap) (live : List Block) (free : List Nat) (peak : Nat) :
    Prop where
  inv : HeapInv brk hp live free
  sized : Sized brk hp
  peak : hp.count = peak

theorem heap_peaks_inv {start : Heap} {peak : Nat} (h : HeapPeaks start hp live peak) :
    ∃ free, PeakInv start.brk hp live free peak := by
  induction h with
  | init => exact ⟨[], heap_inv_init start, fun i hi => absurd hi (Nat.not_lt_zero i), rfl⟩
  | get run small call ih =>
    obtain ⟨free, hinv, hsized, hpeak⟩ := ih
    obtain ⟨hsized', hcount⟩ := hinv.get_small hsized small call
    obtain ⟨hp₁, p₁, free₁, hrun, hinv₁⟩ := hinv.get _
    cases call.symm.trans hrun
    exact ⟨free₁, hinv₁, hsized', by rw [hcount, hpeak]⟩
  | put run owned ih =>
    obtain ⟨free, hinv, hsized, hpeak⟩ := ih
    obtain ⟨free', hinv'⟩ := hinv.put owned
    exact ⟨free', hinv', hsized, hpeak⟩
  | write run owned inside wrote ih =>
    obtain ⟨free, hinv, hsized, hpeak⟩ := ih
    obtain ⟨hinv', hsized'⟩ := hinv.write hsized owned inside wrote
    exact ⟨free, hinv', hsized', wrote.count.trans hpeak⟩

/-- In a run of requests that fit a node, the break has moved by a node for
each block there was at the peak, heap_free moves it back to where it was, and
the block put last is the one handed out next. -/
theorem heap_takes_peak {start : Heap} {peak : Nat} (h : HeapPeaks start hp live peak) :
    hp.brk = start.brk + peak * HEAP_NODE_SIZE ∧ (heapFree hp).brk = start.brk ∧
      ∀ b ∈ live, ∀ size ≤ HEAP_NODE_SIZE, ∃ hp',
        heapGet (heapPut hp b.ptr) size = .ok (hp', b.ptr) := by
  obtain ⟨free, hinv, hsized, rfl⟩ := heap_peaks_inv h
  refine ⟨hinv.brk, ?_, fun b hb size hsize => ?_⟩
  · rw [heapFree, heapShrink, hinv.brk, nodeAddr]
    exact Nat.add_sub_cancel _ _
  · obtain ⟨i, hi, he⟩ := hinv.block (Or.inr (List.mem_map_of_mem hb))
    have haddr : b.ptr - sizeofHeapNode = nodeAddr start.brk i := by omega
    have hnext : (heapPut hp b.ptr).links.next .head = .node (nodeAddr start.brk i) := by
      simp [heapPut, heapNodeAdd, Links.addAfter, Links.setNext, Links.setPrev, haddr]
    have hbig : size ≤ (heapPut hp b.ptr).size (.node (nodeAddr start.brk i)) :=
      Nat.le_trans hsize (Nat.le_of_eq (hsized i hi).symm)
    have hget := heap_get_first hnext hbig
    rw [← he] at hget
    exact ⟨_, hget⟩

/-- Two blocks, of which the first is put back before a third is got. -/
theorem heap_takes_peak_two : ∃ hp live, HeapPeaks heapStart hp live 2 ∧
    hp.brk = heapStart.brk + 2 * HEAP_NODE_SIZE ∧ (heapFree hp).brk = heapStart.brk ∧
      ∀ b ∈ live, ∀ size ≤ HEAP_NODE_SIZE, ∃ hp',
        heapGet (heapPut hp b.ptr) size = .ok (hp', b.ptr) := by
  have hone : HeapPeaks heapStart _ [⟨24, 64⟩] 1 := .get .init (by decide) rfl
  have htwo : HeapPeaks heapStart _ [⟨1048, 8⟩, ⟨24, 64⟩] 2 := .get hone (by decide) rfl
  have hput : HeapPeaks heapStart _ [⟨1048, 8⟩] 2 := .put (b := ⟨24, 64⟩) htwo (by decide)
  have hlast : HeapPeaks heapStart _ [⟨24, 32⟩, ⟨1048, 8⟩] 2 := .get hput (by decide) rfl
  exact ⟨_, _, hlast, heap_takes_peak hlast⟩

end

end Mepl
