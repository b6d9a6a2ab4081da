import Mepl.Base.Reach
import Mepl.Ptrset.DynarrRuns

namespace Mepl.DynarrSet
open Base

/-- What do_dynarr_set_free goes from and to; the left ones are the nodes, the
right ones their arrays of kids. -/
inductive Points (s : DynarrSet) : Nat ⊕ Nat → Nat ⊕ Nat → Prop
  | array {np kids : Nat} {node : Node} (h : s.nodes[np]? = some node)
      (hkids : node.kids = some kids) : Points s (.inl np) (.inr kids)
  | edge {np kids m i : Nat} {node : Node} {a : List Kid} {kid : Kid}
      (h : s.nodes[np]? = some node) (hkids : node.kids = some kids)
      (ha : s.arrays[kids]? = some (some a)) (hi : i < node.len) (hkid : a[i]? = some kid)
      (hedge : kid.edge = some m) : Points s (.inl np) (.inl m)

def Live (s : DynarrSet) : Nat ⊕ Nat → Prop :=
  Reach (fun b => ∃ np, s.root = some np ∧ b = .inl np) s.Points

/-- An array is as long as its capacity. -/
def sizeof (s : DynarrSet) : Nat ⊕ Nat → Nat
  | .inl _ => sizeofNode
  | .inr kids =>
    match s.arrays[kids]? with
    | some (some a) => sizeofKid * a.length
    | _ => 0

/-- ps_bytes is the size of the set and of what its root leads to, which is all
there is. -/
structure BytesHeld (s : DynarrSet) : Prop where
  counted : SizeCounts s.Live s.sizeof sizeofDynarrSet s.psBytes
  nodes : ∀ np < s.nodes.length, s.Live (.inl np)
  arrays : ∀ kids a, s.arrays[kids]? = some (some a) → s.Live (.inr kids)

variable {s : DynarrSet} {a : Addr} {n m : Nat}

theorem new_held : BytesHeld dynarrSetNew := by
  have hnone : ∀ b, ¬ dynarrSetNew.Live b := by
    apply not_reach
    rintro b ⟨np, hr, -⟩
    cases hr
  refine ⟨size_counts_none hnone, ?_, ?_⟩
  · intro np hnp
    exact absurd hnp (Nat.not_lt_zero np)
  · intro kids a hkids
    cases hkids

/-- The node and the array for the chunk i of the one address there is. -/
theorem path_block (a : Addr) (n : Nat) {i : Nat} (hi : i < 4) :
    (pathSet a n).nodes[i]? = some ⟨some i, 1, 1⟩ ∧ ∃ c, (pathSet a n).arrays[i]? =
      some (some [⟨some (if i = 3 then n + 3 else i + 1), c⟩]) := by
  obtain ⟨cs, hcs⟩ := a
  match cs, hcs with
  | [c0, c1, c2, c3], hcs =>
    match i, hi with
    | 0, _ => exact ⟨rfl, c0, rfl⟩
    | 1, _ => exact ⟨rfl, c1, rfl⟩
    | 2, _ => exact ⟨rfl, c2, rfl⟩
    | 3, _ => exact ⟨rfl, c3, rfl⟩

/-- Only these nodes have an array. -/
theorem path_node {np kids : Nat} {node : Node} (h : (pathSet a n).nodes[np]? = some node)
    (hkids : node.kids = some kids) : np = kids ∧ kids < 4 ∧ node.len = 1 := by
  rcases Nat.lt_or_ge np 4 with hlt | hge
  · rw [(path_block a n hlt).1] at h
    cases h
    cases hkids
    exact ⟨rfl, hlt, rfl⟩
  · simp only [pathSet] at h
    rw [List.getElem?_append_right hge] at h
    rw [List.eq_of_mem_replicate (List.mem_of_getElem? h)] at hkids
    cases hkids

theorem path_edge {i : Nat} (hi : i < 4) (h : (pathSet a n).Live (.inl i)) :
    (pathSet a n).Live (.inl (if i = 3 then n + 3 else i + 1)) := by
  obtain ⟨hnode, c, harray⟩ := path_block a n hi
  exact h.step (.edge (i := 0) hnode rfl harray Nat.zero_lt_one rfl rfl)

theorem path_live (a : Addr) (n : Nat) {i : Nat} (hi : i < 4) : (pathSet a n).Live (.inl i) := by
  have h0 : (pathSet a n).Live (.inl 0) := .root ⟨0, rfl, rfl⟩
  have h1 : (pathSet a n).Live (.inl 1) := path_edge (i := 0) (by omega) h0
  have h2 : (pathSet a n).Live (.inl 2) := path_edge (i := 1) (by omega) h1
  have h3 : (pathSet a n).Live (.inl 3) := path_edge (i := 2) (by omega) h2
  match i, hi with
  | 0, _ => exact h0
  | 1, _ => exact h1
  | 2, _ => exact h2
  | 3, _ => exact h3

/-- Besides them, only the node at the end and the arrays are live. -/
theorem Live.path {b : Nat ⊕ Nat} (hb : (pathSet a n).Live b) :
    Sum.elim (fun np => np < 4 ∨ np = n + 3) (fun kids => kids < 4) b := by
  induction hb with
  | root here =>
    obtain ⟨np, hr, rfl⟩ := here
    cases hr
    exact Or.inl (by omega)
  | step _ next ih =>
    cases next with
    | array h hkids => exact (path_node h hkids).2.1
    | @edge np kids m i node array kid h hkids ha hi hkid hedge =>
      obtain ⟨-, hlt, hlen⟩ := path_node h hkids
      obtain ⟨-, c, harray⟩ := path_block a n hlt
      rw [harray] at ha
      cases ha
      obtain rfl : i = 0 := by omega
      cases hkid
      cases hedge
      rw [Sum.elim_inl]
      by_cases hlast : kids = 3
      · exact Or.inr (if_pos hlast)
      · rw [if_neg hlast]
        exact Or.inl (by omega)

/-- A second add of the address cuts off the node that the first one made. -/
theorem path_held_iff (hn : 1 ≤ n) : BytesHeld (pathSet a n) ↔ n = 1 := by
  constructor
  · intro hheld
    have hlen : 4 < (pathSet a n).nodes.length := by
      simp [pathSet]
      omega
    have hpath : 4 < 4 ∨ 4 = n + 3 := (hheld.nodes 4 hlen).path
    omega
  · rintro rfl
    have hend : (pathSet a 1).Live (.inl 4) :=
      path_edge (i := 3) (by omega) (path_live a 1 (by omega))
    have hnodes : ∀ np < 5, (pathSet a 1).Live (.inl np) := by
      intro np hnp
      rcases Nat.lt_succ_iff_lt_or_eq.mp hnp with hlt | rfl
      · exact path_live a 1 hlt
      · exact hend
    have harrays : ∀ kids < 4, (pathSet a 1).Live (.inr kids) :=
      fun kids hk => (path_live a 1 hk).step (.array (path_block a 1 hk).1 rfl)
    have hsize : ∀ kids < 4, (pathSet a 1).sizeof (.inr kids) = sizeofKid := by
      intro kids hk
      obtain ⟨-, c, harray⟩ := path_block a 1 hk
      simp only [sizeof, harray]
      rfl
    refine ⟨?_, hnodes, ?_⟩
    · apply size_counts_two (n := 5) (m := 4) (a := sizeofNode) (b := sizeofKid)
      · refine fun np => ⟨fun hb => ?_, hnodes np⟩
        have hpath : np < 4 ∨ np = 1 + 3 := hb.path
        omega
      · exact fun kids => ⟨fun hb => hb.path, harrays kids⟩
      · exact fun _ _ => rfl
      · exact hsize
    · intro kids array hkids
      have hlen : (pathSet a 1).arrays.length = 4 := by simp [pathSet, a.2, ADDR_LEN]
      exact harrays kids (hlen ▸ (List.getElem?_eq_some_iff.mp hkids).1)

def dynarrSetAdds (adds : List Addr) : Res DynarrSet := adds.foldlM dynarrSetAdd dynarrSetNew

/-- More adds make more nodes for the address, or leave the array. -/
theorem adds_path {adds : List Addr} (hrun : adds.foldlM dynarrSetAdd (pathSet a n) = .ok s) :
    s = pathSet a (n + adds.length) := by
  induction adds generalizing n with
  | nil =>
    cases hrun
    rfl
  | cons b adds ih =>
    rw [List.foldlM_cons] at hrun
    by_cases hb : b = a
    · subst hb
      rw [add_again, ok_bind] at hrun
      rw [ih hrun, List.length_cons]
      congr 1
      omega
    · rw [add_other hb] at hrun
      cases hrun

end Mepl.DynarrSet
