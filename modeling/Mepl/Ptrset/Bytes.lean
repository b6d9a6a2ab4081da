import Mepl.Ptrset.BstFree
import Mepl.Ptrset.DynarrFree
import Mepl.Ptrset.FixsetFree
import Mepl.Ptrset.ListFree

namespace Mepl
open Base

namespace Fixset

/-- Every add returns, ps_bytes is right afterwards with every block held, and
ps_free gives each of the blocks back, once. -/
def RunHeld (adds : List Addr) : Prop :=
  ∃ s, fixsetRun adds = .ok s ∧ BytesHeld s ∧
    ∃ h, fixsetFree s = .ok h ∧ h.freed.Perm (SetBlock.allocated s.nodes.length 0)

theorem BytesHeld.all {s : Fixset} (h : BytesHeld s) :
    ∀ b ∈ SetBlock.allocated s.nodes.length 0, s.Held b := by
  intro b hb
  cases b with
  | set => trivial
  | node np => exact h.nodes np (by simpa [SetBlock.allocated] using hb)
  | kid k => simp [SetBlock.allocated] at hb

theorem run_held_iff (adds : List Addr) : RunHeld adds ↔ adds.Nodup := by
  have hnew : RunCounts fixsetNew [] := ⟨RunBytes.new, Trie.counts_nil rfl⟩
  obtain ⟨s, hrun, hcounts⟩ := fold_keeps (P := RunCounts) (fun a h => h.add a) adds hnew
  rw [List.nil_append] at hcounts
  obtain ⟨h, hfree, -, hreleased⟩ := hcounts.free
  refine (exists_ok_iff hrun).trans ⟨fun hheld => hcounts.1.held_iff.mp hheld.1, fun hadds => ?_⟩
  have hheld := hcounts.1.held_iff.mpr hadds
  exact ⟨hheld, h, hfree, hreleased.all hadds hheld.all⟩

end Fixset

namespace ListSet

/-- As for fixset. -/
def RunHeld (adds : List Addr) : Prop :=
  ∃ s, listSetAdds adds = .ok s ∧ BytesHeld s ∧
    ∃ h, listSetFree s = .ok h ∧ h.freed.Perm (SetBlock.allocated s.nodes.length s.kids.length)

theorem BytesHeld.all {s : ListSet} (h : BytesHeld s) :
    ∀ b ∈ SetBlock.allocated s.nodes.length s.kids.length, s.Held b := by
  intro b hb
  cases b with
  | set => trivial
  | node np => exact h.nodes np (by simpa [SetBlock.allocated] using hb)
  | kid k => exact h.kids k (by simpa [SetBlock.allocated] using hb)

theorem RunCounts.bytes {s : ListSet} {added : List Addr} (h : RunCounts s added) :
    RunBytes s added := by
  obtain ⟨chain, key, hlists, hok, hb, hplaced, hkeeps, -⟩ := h
  exact ⟨chain, key, hlists, hok, hb, hplaced, hkeeps⟩

theorem run_held_iff (adds : List Addr) : RunHeld adds ↔ adds.Nodup := by
  obtain ⟨s, hrun, hcounts⟩ := fold_keeps (P := RunCounts) (fun a h => h.add a) adds RunCounts.new
  rw [List.nil_append] at hcounts
  obtain ⟨h, hfree, -, hreleased⟩ := hcounts.free
  have hiff := hcounts.bytes.held_iff
  refine (exists_ok_iff hrun).trans ⟨fun hheld => hiff.mp hheld.1, fun hadds => ?_⟩
  have hheld := hiff.mpr hadds
  exact ⟨hheld, h, hfree, hreleased.all hadds hheld.all⟩

end ListSet

namespace DynarrSet

/-- The blocks of a set; an array that realloc() has moved is none of them. -/
def allocated (s : DynarrSet) : List SetBlock :=
  .set :: ((List.range s.nodes.length).map .node ++
    ((List.range s.arrays.length).filter (fun k => s.arrays[k]? ≠ some none)).map .kid)

/-- As for fixset. -/
def RunHeld (adds : List Addr) : Prop :=
  ∃ s, dynarrSetAdds adds = .ok s ∧ BytesHeld s ∧
    ∃ h, dynarrSetFree s = .ok h ∧ h.freed.Perm s.allocated

theorem path_allocated (a : Addr) : (pathSet a 1).allocated =
    [.set, .node 0, .node 1, .node 2, .node 3, .node 4, .kid 0, .kid 1, .kid 2, .kid 3] := by
  obtain ⟨cs, hcs⟩ := a
  match cs, hcs with
  | [c0, c1, c2, c3], hcs => rfl

theorem run_held_iff (adds : List Addr) : RunHeld adds ↔ adds.length ≤ 1 := by
  cases adds with
  | nil =>
    refine ⟨fun _ => Nat.zero_le 1, fun _ => ⟨dynarrSetNew, rfl, new_held, ?_⟩⟩
    exact ⟨⟨dynarrSetNew, [.set]⟩, rfl, List.Perm.refl _⟩
  | cons a adds =>
    have hfirst : dynarrSetAdds (a :: adds) = adds.foldlM dynarrSetAdd (pathSet a 1) := by
      rw [dynarrSetAdds, List.foldlM_cons, add_first, ok_bind]
    rw [RunHeld, hfirst, List.length_cons]
    constructor
    · rintro ⟨s, hrun, hheld, -⟩
      rw [adds_path hrun] at hheld
      have hone := (path_held_iff (Nat.le_add_right 1 _)).mp hheld
      omega
    · intro hlen
      obtain rfl : adds = [] := List.eq_nil_of_length_eq_zero (by omega)
      refine ⟨pathSet a 1, rfl, (path_held_iff (Nat.le_refl 1)).mpr rfl, _, path_free a 0, ?_⟩
      have hperm : [SetBlock.node 4, .kid 3, .node 3, .kid 2, .node 2, .kid 1, .node 1, .kid 0,
          .node 0, .set].Perm [.set, .node 0, .node 1, .node 2, .node 3, .node 4, .kid 0, .kid 1,
            .kid 2, .kid 3] := by decide
      rw [path_allocated]
      exact hperm

end DynarrSet

namespace BstSet

/-- As for fixset. -/
def RunHeld (fuel : Nat) (adds : List Addr) : Prop :=
  ∃ s, bstSetRun fuel adds = .ok s ∧ BytesHeld s ∧
    ∃ h, bstSetFree s = .ok h ∧ h.freed.Perm (SetBlock.allocated s.nodes.length s.kids.length)

theorem run_held_iff (fuel : Nat) (adds : List Addr) : RunHeld fuel adds ↔ adds = [] := by
  cases adds with
  | nil =>
    refine ⟨fun _ => rfl, fun _ => ⟨bstSetNew, rfl, new_held, ?_⟩⟩
    exact ⟨⟨bstSetNew, [.set]⟩, rfl, List.Perm.refl _⟩
  | cons a adds =>
    refine ⟨?_, fun h => by cases h⟩
    rintro ⟨s, hrun, hheld, -⟩
    exact absurd hheld (adds_not_held hrun)

end BstSet

/-- For which adds ps_bytes is the size of what the set holds, with everything
that was allocated still held and given back by ps_free: an address added again
cuts off the node at its end in all four sets, the dynamic arrays are for one
address only, and bst_set does not count its kids. -/
theorem ps_bytes_iff (fuel : Nat) (adds : List Addr) :
    (Fixset.RunHeld adds ↔ adds.Nodup) ∧ (ListSet.RunHeld adds ↔ adds.Nodup) ∧
    (DynarrSet.RunHeld adds ↔ adds.length ≤ 1) ∧ (BstSet.RunHeld fuel adds ↔ adds = []) :=
  ⟨Fixset.run_held_iff adds, ListSet.run_held_iff adds, DynarrSet.run_held_iff adds,
    BstSet.run_held_iff fuel adds⟩

/-- An address added twice to a fixset, and one added to a bst_set. -/
theorem ps_bytes_wrong : ¬ Fixset.RunHeld [Fixset.highAddr 0, Fixset.highAddr 0] ∧
    ¬ BstSet.RunHeld 13 [Fixset.highAddr 0] := by
  rw [Fixset.run_held_iff, BstSet.run_held_iff]
  exact ⟨by decide, List.cons_ne_nil _ _⟩

end Mepl
