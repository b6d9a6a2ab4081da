import Mepl.Ptrset.Blocks
import Mepl.Ptrset.DynarrBytes

namespace Mepl.DynarrSet
open Base

/-- The set's own block, the nodes it leads to and their arrays. -/
def Held (s : DynarrSet) : SetBlock → Prop
  | .set => True
  | .node np => s.Live (.inl np)
  | .kid kids => s.Live (.inr kids)

/-- The block that a slot is in. -/
def slotBlock : NodeSlot → SetBlock
  | .root => .set
  | .edge kids _ => .kid kids

/-- The slots that KID_FOR_EACH goes through. -/
def kidSlots (node : Node) : List NodeSlot :=
  match node.kids with
  | none => []
  | some kids => (List.range node.len).map (.edge kids)

/-- `free(np->kids)`; there is nothing to free without an array. -/
def freeKids (h : Freeing DynarrSet SetBlock) : Ptr → Res (Freeing DynarrSet SetBlock)
  | none => pure h
  | some kids => h.free (.kid kids)

/-- do_dynarr_set_free; KID_FOR_EACH looks at the node again after every kid. -/
def doDynarrSetFree : Nat → Freeing DynarrSet SetBlock → NodeSlot →
    Res (Freeing DynarrSet SetBlock)
  | 0, _, _ => .error .fuel
  | d + 1, h, npp => do
    h.use (slotBlock npp)
    match ← h.mem.readNode npp with
    | none => pure h
    | some np => do
      h.use (.node np)
      let node ← load h.mem.nodes np
      let h ← (kidSlots node).foldlM (fun h npp => do
        let h ← doDynarrSetFree d h npp
        h.use (.node np)
        pure h) h
      let h ← freeKids h node.kids
      let h ← h.free (.node np)
      h.use (slotBlock npp)
      let s ← h.mem.writeNode npp none
      pure { h with mem := s }

/-- dynarr_set_free. The calls are as deep as an address is long, with one for
the root and one for the NULL at the end. -/
def dynarrSetFree (s : DynarrSet) : Res (Freeing DynarrSet SetBlock) := do
  let h ← doDynarrSetFree (ADDR_LEN + 2) ⟨s, []⟩ .root
  h.free .set

section
variable {h h₁ : Freeing DynarrSet SetBlock} {s : DynarrSet} {npp : NodeSlot} {np kids d n : Nat}

/-- A node without kids. -/
theorem free_end (hread : h.mem.readNode npp = .ok (some np))
    (hnode : h.mem.nodes[np]? = some ⟨none, 0, 0⟩)
    (hout : (h.freed ++ [.node np, slotBlock npp]).Nodup)
    (hwrite : h.mem.writeNode npp none = .ok s) :
    doDynarrSetFree (d + 1) h npp = .ok ⟨s, h.freed ++ [.node np]⟩ := by
  have hslot : slotBlock npp ∉ h.freed ++ [.node np] := Freeing.last_held hout
  have hheld : SetBlock.node np ∉ h.freed :=
    fun hin => (List.nodup_append'.mp hout).2.2 hin List.mem_cons_self
  rw [doDynarrSetFree, Freeing.use_held (fun hin => hslot (List.mem_append_left _ hin)), ok_bind,
    hread, ok_bind]
  simp only [Freeing.use_held hheld, load_some hnode, ok_bind, kidSlots, List.foldlM_nil, pure_ok,
    freeKids, Freeing.free_held hheld]
  rw [Freeing.use_held hslot, ok_bind, hwrite, ok_bind]

/-- A node with one kid: what is below the kid, then the array and the node. -/
theorem free_level (hread : h.mem.readNode npp = .ok (some np))
    (hnode : h.mem.nodes[np]? = some ⟨some kids, 1, 1⟩)
    (hrec : doDynarrSetFree d h (.edge kids 0) = .ok h₁) (hless : h.freed ⊆ h₁.freed)
    (hout : (h₁.freed ++ [.kid kids, .node np, slotBlock npp]).Nodup)
    (hwrite : h₁.mem.writeNode npp none = .ok s) :
    doDynarrSetFree (d + 1) h npp = .ok ⟨s, h₁.freed ++ [.kid kids, .node np]⟩ := by
  have hlast : slotBlock npp ∉ h₁.freed ++ [.kid kids, .node np] := Freeing.last_held hout
  have hheld : ∀ b ∈ [SetBlock.kid kids, .node np, slotBlock npp], b ∉ h₁.freed :=
    fun b hb hin => (List.nodup_append'.mp hout).2.2 hin hb
  have hkid : SetBlock.kid kids ∉ h₁.freed := hheld _ (by simp)
  have hnp : SetBlock.node np ∉ h₁.freed := hheld _ (by simp)
  have hslot : slotBlock npp ∉ h₁.freed := hheld _ (by simp)
  have hnp' : SetBlock.node np ∉ h₁.freed ++ [.kid kids] := by simp [hnp]
  rw [doDynarrSetFree, Freeing.use_held (fun hin => hslot (hless hin)), ok_bind, hread, ok_bind]
  simp only [Freeing.use_held (fun hin => hnp (hless hin)), load_some hnode, ok_bind, kidSlots,
    List.range_one, List.map_cons, List.map_nil, List.foldlM_cons, List.foldlM_nil, hrec,
    Freeing.use_held hnp, pure_ok, freeKids, Freeing.free_held hkid]
  rw [Freeing.free_held hnp', ok_bind, List.append_assoc, List.singleton_append,
    Freeing.use_held hlast, ok_bind, hwrite, ok_bind]

/-- The set after n + 1 adds of an address, with the slots emptied from the
level i on. -/
def pathCut (a : Addr) (n i : Nat) : DynarrSet :=
  { pathSet a (n + 1) with
    root := if i = 0 then none else some 0
    arrays := List.zipWith (fun np c => some [⟨np, c⟩])
      (([some 1, some 2, some 3, some (n + 4)] : List Ptr).take (i - 1) ++
        List.replicate (5 - i) none) a.1 }

theorem path_free (a : Addr) (n : Nat) :
    dynarrSetFree (pathSet a (n + 1)) = .ok ⟨pathCut a n 0,
      [.node (n + 4), .kid 3, .node 3, .kid 2, .node 2, .kid 1, .node 1, .kid 0, .node 0,
        .set]⟩ := by
  obtain ⟨cs, hcs⟩ := a
  match cs, hcs with
  | [c0, c1, c2, c3], hcs =>
    let a : Addr := ⟨[c0, c1, c2, c3], hcs⟩
    have h4 : doDynarrSetFree 2 ⟨pathSet a (n + 1), []⟩ (.edge 3 0) =
        .ok ⟨pathCut a n 4, [.node (n + 4)]⟩ :=
      free_end rfl (by simp [pathSet]) (by simp [slotBlock]) rfl
    have h3 : doDynarrSetFree 3 ⟨pathSet a (n + 1), []⟩ (.edge 2 0) =
        .ok ⟨pathCut a n 3, _⟩ :=
      free_level rfl rfl h4 (by simp) (by simp [slotBlock]) rfl
    have h2 : doDynarrSetFree 4 ⟨pathSet a (n + 1), []⟩ (.edge 1 0) =
        .ok ⟨pathCut a n 2, _⟩ :=
      free_level rfl rfl h3 (by simp) (by simp [slotBlock]) rfl
    have h1 : doDynarrSetFree 5 ⟨pathSet a (n + 1), []⟩ (.edge 0 0) =
        .ok ⟨pathCut a n 1, _⟩ :=
      free_level rfl rfl h2 (by simp) (by simp [slotBlock]) rfl
    have h0 : doDynarrSetFree 6 ⟨pathSet a (n + 1), []⟩ .root = .ok ⟨pathCut a n 0, _⟩ :=
      free_level rfl rfl h1 (by simp) (by simp [slotBlock]) rfl
    have hall : doDynarrSetFree (ADDR_LEN + 2) ⟨pathSet a (n + 1), []⟩ .root =
        .ok ⟨pathCut a n 0, _⟩ := h0
    rw [dynarrSetFree, hall, ok_bind, Freeing.free_held (by simp)]
    rfl

theorem path_live_node {a : Addr} {m : Nat} :
    m ∈ ({0, 1, 2, 3, n + 4} : Finset Nat) ↔ (pathSet a (n + 1)).Live (.inl m) := by
  simp only [Finset.mem_insert, Finset.mem_singleton]
  constructor
  · rintro (rfl | rfl | rfl | rfl | rfl)
    · exact path_live a _ (by omega)
    · exact path_live a _ (by omega)
    · exact path_live a _ (by omega)
    · exact path_live a _ (by omega)
    · exact path_edge (i := 3) (by omega) (path_live a _ (by omega))
  · intro hm
    have hpath : m < 4 ∨ m = n + 1 + 3 := hm.path
    omega

theorem path_live_array {a : Addr} {m : Nat} : (pathSet a (n + 1)).Live (.inr m) ↔ m < 4 :=
  ⟨fun hm => hm.path, fun hm => (path_live a _ hm).step (.array (path_block a _ hm).1 rfl)⟩

/-- A run that returns was given one address only. -/
theorem adds_same {a : Addr} {adds : List Addr}
    (hrun : adds.foldlM dynarrSetAdd (pathSet a n) = .ok s) : ∀ b ∈ adds, b = a := by
  induction adds generalizing n with
  | nil => exact fun b hb => absurd hb List.not_mem_nil
  | cons b adds ih =>
    rw [List.foldlM_cons] at hrun
    by_cases hb : b = a
    · subst hb
      rw [add_again, ok_bind] at hrun
      intro e he
      rcases List.mem_cons.mp he with rfl | he
      · rfl
      · exact ih hrun e he
    · rw [add_other hb] at hrun
      cases hrun

theorem path_releases {a : Addr} {adds : List Addr} (hlen : adds.length = n + 1)
    (hsame : ∀ b ∈ adds, b = a) :
    ∃ h, dynarrSetFree (pathSet a (n + 1)) = .ok h ∧ h.mem.root = none ∧
      Released (pathSet a (n + 1)).nodes.length (pathSet a (n + 1)).arrays.length
        (pathSet a (n + 1)).Held adds h.freed := by
  have hset : adds.toFinset = {a} := by
    obtain ⟨b, rest, rfl⟩ := List.exists_cons_of_length_eq_add_one hlen
    refine Finset.eq_singleton_iff_unique_mem.mpr ⟨?_, fun e he => ?_⟩
    · rw [List.mem_toFinset, ← hsame b List.mem_cons_self]
      exact List.mem_cons_self
    · exact hsame e (List.mem_toFinset.mp he)
  have harrays : (pathSet a (n + 1)).arrays.length = 4 := by simp [pathSet, a.2, ADDR_LEN]
  refine ⟨_, path_free a n, rfl, released {0, 1, 2, 3, n + 4} trivial ?_ ?_ ?_ ?_ ?_⟩
  · exact fun k => path_live_array.trans (by rw [harrays])
  · exact fun np => path_live_node
  · rw [hset, hlen, Finset.card_singleton]
    simp [pathSet]
    omega
  · simp
  · intro b
    cases b with
    | set => simp [Held]
    | node np =>
      refine Iff.trans ?_ path_live_node
      simp
      omega
    | kid k =>
      refine Iff.trans ?_ path_live_array.symm
      simp
      omega

/-- dynarr_set_free after any adds that return: no block is used or freed after
it was freed, and nothing that the set holds is left. -/
theorem dynarr_set_free_releases {adds : List Addr} (hrun : dynarrSetAdds adds = .ok s) :
    ∃ h, dynarrSetFree s = .ok h ∧ h.mem.root = none ∧
      Released s.nodes.length s.arrays.length s.Held adds h.freed := by
  cases adds with
  | nil =>
    cases hrun
    have hnone : ∀ b, ¬ dynarrSetNew.Live b := by
      apply not_reach
      rintro b ⟨np, hr, -⟩
      cases hr
    refine ⟨⟨dynarrSetNew, [.set]⟩, rfl, rfl, released ∅ trivial ?_ ?_ rfl ?_ ?_⟩
    · exact fun k => iff_of_false (hnone _) (Nat.not_lt_zero k)
    · exact fun np => iff_of_false (Finset.notMem_empty np) (hnone _)
    · exact List.nodup_singleton _
    · intro b
      cases b with
      | set => simp [Held]
      | node np => simp [Held, hnone]
      | kid k => simp [Held, hnone]
  | cons a adds =>
    rw [dynarrSetAdds, List.foldlM_cons, add_first, ok_bind] at hrun
    have hs := adds_path hrun
    rw [Nat.add_comm] at hs
    subst hs
    refine path_releases (List.length_cons) (fun b hb => ?_)
    rcases List.mem_cons.mp hb with rfl | hb
    · rfl
    · exact adds_same hrun b hb

def oneAddrTwice : List Addr := [⟨[1, 2, 3, 4], rfl⟩, ⟨[1, 2, 3, 4], rfl⟩]

theorem dynarr_set_free_releases_twice : ∃ s h, dynarrSetAdds oneAddrTwice = .ok s ∧
    dynarrSetFree s = .ok h ∧
      Released s.nodes.length s.arrays.length s.Held oneAddrTwice h.freed := by
  have hrun : dynarrSetAdds oneAddrTwice = .ok _ := rfl
  obtain ⟨h, hfree, -, hreleased⟩ := dynarr_set_free_releases hrun
  exact ⟨_, h, hrun, hfree, hreleased⟩

end

end Mepl.DynarrSet
