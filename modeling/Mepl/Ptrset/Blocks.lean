import Mepl.Base.Release
import Mepl.C.Free
import Mepl.Ptrset.Bst

namespace Mepl
open Base

/-- What zalloc returned to a set. -/
inductive SetBlock where
  | set
  | node (np : Nat)
  | kid (k : Nat)
deriving DecidableEq, Repr

def SetBlock.allocated (nodes kids : Nat) : List SetBlock :=
  .set :: ((List.range nodes).map .node ++ (List.range kids).map .kid)

theorem SetBlock.blocks_nodup {nodes kids : List Nat} (hnodes : nodes.Nodup) (hkids : kids.Nodup) :
    (SetBlock.set :: (nodes.map .node ++ kids.map .kid)).Nodup := by
  refine List.nodup_cons.mpr ⟨by simp, List.nodup_append'.mpr ⟨?_, ?_, ?_⟩⟩
  · exact hnodes.map (fun _ _ => SetBlock.node.inj)
  · exact hkids.map (fun _ _ => SetBlock.kid.inj)
  · intro b hb hb'
    obtain ⟨np, -, rfl⟩ := List.mem_map.mp hb
    simp at hb'

theorem SetBlock.node_nodup (np : Nat) : [SetBlock.node np].Nodup := List.nodup_singleton _

theorem SetBlock.node_owner (np np' : Nat) (b : SetBlock) (hn : b ∈ [SetBlock.node np])
    (hn' : b ∈ [SetBlock.node np']) : np = np' := by
  rw [List.mem_singleton] at hn hn'
  exact SetBlock.node.inj (hn.symm.trans hn')

/-- The order of the frees where every kid has a block of its own: after the
node it leads to, and before the node it is in. -/
def SetBlock.release (order : Nat → List Nat) : Release Nat Nat SetBlock where
  order := order
  ofKid := fun k => [.kid k]
  ofNode := fun np => [.node np]
  holder := .kid
  kid_nodup := fun _ => List.nodup_singleton _
  node_nodup := SetBlock.node_nodup
  kid_owner := by
    intro k k' b hk hk'
    rw [List.mem_singleton] at hk hk'
    exact SetBlock.kid.inj (hk.symm.trans hk')
  node_owner := SetBlock.node_owner
  apart := by
    intro k np b hk hn
    rw [List.mem_singleton] at hk hn
    cases hk.symm.trans hn
  held := fun _ _ _ => Or.inl (List.mem_singleton_self _)

section
variable {order : Nat → List Nat} {np m k : Nat}

theorem SetBlock.release_set : ¬ (SetBlock.release order).Of .set np := by
  simp [Release.Of, SetBlock.release]

theorem SetBlock.release_node : (SetBlock.release order).Of (.node m) np ↔ m = np := by
  simp [Release.Of, SetBlock.release]

theorem SetBlock.release_kid : (SetBlock.release order).Of (.kid k) np ↔ k ∈ order np := by
  simp [Release.Of, SetBlock.release]

end

/-- All that a set holds was given back, each block once. What stays allocated
are nodes, one for every add of an address that was there. -/
structure Released (nodes kids : Nat) (Held : SetBlock → Prop) (adds : List Addr)
    (freed : List SetBlock) : Prop where
  once : freed.Nodup
  held : ∀ b, b ∈ freed ↔ Held b
  lost : ∀ b ∈ SetBlock.allocated nodes kids, b ∉ freed → ∃ np, b = .node np
  count : (SetBlock.allocated nodes kids).length =
    freed.length + (adds.length - adds.toFinset.card)

/-- A set that lost no kids, and nodes only where it was given an address again. -/
theorem released {nodes kids : Nat} {Held : SetBlock → Prop} {adds : List Addr}
    {freed : List SetBlock} (live : Finset Nat)
    (hset : Held .set) (hkids : ∀ k, Held (.kid k) ↔ k < kids)
    (hlive : ∀ np, np ∈ live ↔ Held (.node np))
    (hcount : nodes = live.card + (adds.length - adds.toFinset.card)) (once : freed.Nodup)
    (held : ∀ b, b ∈ freed ↔ Held b) : Released nodes kids Held adds freed where
  once := once
  held := held
  lost := by
    intro b hb hnot
    rw [held] at hnot
    cases b with
    | set => exact absurd hset hnot
    | node np => exact ⟨np, rfl⟩
    | kid k =>
      rw [hkids] at hnot
      simp [SetBlock.allocated, hnot] at hb
  count := by
    let blocks := SetBlock.set :: (live.toList.map .node ++ (List.range kids).map .kid)
    have hnodup : blocks.Nodup := SetBlock.blocks_nodup live.nodup_toList List.nodup_range
    have hperm : freed.Perm blocks := by
      refine (List.perm_ext_iff_of_nodup once hnodup).mpr (fun b => ?_)
      rw [held]
      cases b <;> simp [blocks, hset, hkids, hlive]
    rw [hperm.length_eq]
    simp only [SetBlock.allocated, blocks, List.length_cons, List.length_append, List.length_map,
      List.length_range, Finset.length_toList]
    omega

/-- Where no address was added again and everything is held, nothing is lost. -/
theorem Released.all {nodes kids : Nat} {Held : SetBlock → Prop} {adds : List Addr}
    {freed : List SetBlock} (h : Released nodes kids Held adds freed) (hadds : adds.Nodup)
    (hheld : ∀ b ∈ SetBlock.allocated nodes kids, Held b) :
    freed.Perm (SetBlock.allocated nodes kids) := by
  have hcount := h.count
  rw [List.toFinset_card_of_nodup hadds, Nat.sub_self, Nat.add_zero] at hcount
  have hnodup : (SetBlock.allocated nodes kids).Nodup :=
    SetBlock.blocks_nodup List.nodup_range List.nodup_range
  have hsub := List.subperm_of_subset hnodup (fun b hb => (h.held b).mpr (hheld b hb))
  exact (hsub.perm_of_length_le (Nat.le_of_eq hcount.symm)).symm

end Mepl
