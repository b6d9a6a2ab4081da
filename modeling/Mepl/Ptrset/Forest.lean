import Mepl.Base.Trie
import Mepl.Ptrset.Insert

namespace Mepl
open Base

/-- The edge of the kid k. -/
def BstSet.edge (s : BstSet) (k : Nat) : Ptr := (s.kids[k]?).bind Kid.edge

/-- Every node has a red-black search tree of its own kids, and every pointer
to a node leads to one. -/
structure Forest (s : BstSet) (tree : Nat → KeyTree Nat PtrT) : Prop where
  node : ∀ np node, s.nodes[np]? = some node → node.kids = (tree np).top
  held : ∀ np, TreeAt s.kids none (tree np)
  nodup : ∀ np, (tree np).keys.Nodup
  apart : ∀ np np' k, k ∈ (tree np).keys → k ∈ (tree np').keys → np = np'
  sorted : ∀ np, (tree np).Sorted
  colors : ∀ np, ∃ n, KeyTree.RB .black n (tree np)
  absent : ∀ np, s.nodes.length ≤ np → tree np = .nil
  root : ∀ np, s.root = some np → np < s.nodes.length
  edges : ∀ k np, s.edge k = some np → np < s.nodes.length

def trieOf (s : BstSet) (tree : Nat → KeyTree Nat PtrT) : Trie Nat Nat PtrT where
  root := s.root
  kid := fun np c => (tree np).find c
  edge := s.edge

def slotOf : NodeSlot → Trie.Slot Nat
  | .root => .root
  | .edge k => .edge k

/-- A slot that can be read and written. -/
def BstSet.Valid (s : BstSet) : NodeSlot → Prop
  | .root => True
  | .edge k => k < s.kids.length

section
variable {s : BstSet} {tree : Nat → KeyTree Nat PtrT} {np : Nat} {npp : NodeSlot} {c : PtrT}
  {fuel : Nat}

theorem edge_eq (s : BstSet) (k : Nat) : s.edge k = (s.kids.map Kid.edge)[k]?.join := by
  rw [BstSet.edge, List.getElem?_map]
  cases s.kids[k]? <;> rfl

theorem Forest.get (h : Forest s tree) (hnp : np < s.nodes.length) :
    s.nodes[np]? = some ⟨(tree np).top⟩ := by
  have hget := List.getElem?_eq_getElem hnp
  rw [hget, ← h.node np _ hget]

theorem Forest.keys_lt (h : Forest s tree) {k : Nat} (hk : k ∈ (tree np).keys) :
    k < s.kids.length :=
  (h.held np).lt k hk

theorem Forest.length_le (h : Forest s tree) (np : Nat) :
    (tree np).keys.length ≤ s.kids.length :=
  (h.held np).length_le (h.nodup np)

theorem Forest.find_lt (h : Forest s tree) {k : Nat} (hf : (tree np).find c = some k) :
    k < s.kids.length :=
  h.keys_lt (List.mem_map_of_mem (KeyTree.find_mem hf))

theorem read_node (tree : Nat → KeyTree Nat PtrT) (hv : s.Valid npp) :
    s.readNode npp = .ok ((trieOf s tree).read (slotOf npp)) := by
  cases npp with
  | root => rfl
  | edge k =>
    have hk : k < s.kids.length := hv
    simp [BstSet.readNode, load_lt hk, slotOf, Trie.read, trieOf, BstSet.edge, hk]

theorem Forest.read_lt (h : Forest s tree) (hr : (trieOf s tree).read (slotOf npp) = some np) :
    np < s.nodes.length := by
  cases npp with
  | root => exact h.root np hr
  | edge k => exact h.edges k np hr

/-- bst_set_has walks the trie. -/
theorem do_bst_set_has_spec (h : Forest s tree) (hfuel : s.kids.length < fuel) (cs : List PtrT)
    (kp : Ptr) (hkp : ∀ np, kp = some np → np < s.nodes.length) :
    doBstSetHas fuel s kp cs = .ok ((trieOf s tree).has kp cs) := by
  induction cs generalizing kp with
  | nil =>
    rw [doBstSetHas, Trie.has]
    rfl
  | cons c cs ih =>
    cases kp with
    | none => rfl
    | some np =>
      have hnode := h.get (hkp np rfl)
      have hfind := kid_find_loop_spec (c := c) (h.held np)
        (Nat.lt_of_le_of_lt (h.length_le np) hfuel)
      rw [doBstSetHas, kidFind, load_some hnode, ok_bind, hfind, ok_bind, Trie.has]
      cases hf : (tree np).find c with
      | none => simp [trieOf, hf]
      | some k =>
        have hk := h.find_lt hf
        have hedge : (trieOf s tree).edge k = s.kids[k].edge := by
          simp [trieOf, BstSet.edge, hk]
        have hkid : (trieOf s tree).kid np c = some k := hf
        simp only [hkid, load_lt hk, ok_bind, ← hedge]
        exact ih _ (fun m hm => h.edges k m hm)

theorem fresh_node (h : Forest s tree) : (trieOf s tree).Fresh s.nodes.length where
  kids := by
    intro c
    simp [trieOf, h.absent _ (Nat.le_refl _), KeyTree.find]
  root := fun hr => Nat.lt_irrefl _ (h.root _ hr)
  edge := fun _ he => Nat.lt_irrefl _ (h.edges _ _ he)

/-- A new node, whatever now points to it. -/
theorem Forest.grow (h : Forest s tree) {s' : BstSet} (hnodes : s'.nodes = s.nodes ++ [⟨none⟩])
    (hheld : ∀ np, TreeAt s'.kids none (tree np))
    (hroot : ∀ np, s'.root = some np → np < s'.nodes.length)
    (hedges : ∀ k np, s'.edge k = some np → np < s'.nodes.length) : Forest s' tree where
  node := by
    intro np node hnp
    rw [hnodes] at hnp
    rcases Nat.lt_or_ge np s.nodes.length with hlt | hge
    · rw [List.getElem?_append_left hlt] at hnp
      exact h.node np node hnp
    · rw [List.getElem?_append_right hge, List.getElem?_singleton] at hnp
      split at hnp
      · cases hnp
        rw [h.absent np hge]
        rfl
      · cases hnp
  held := hheld
  nodup := h.nodup
  apart := h.apart
  sorted := h.sorted
  colors := h.colors
  absent := by
    intro np hnp
    rw [hnodes, List.length_append] at hnp
    exact h.absent np (Nat.le_trans (Nat.le_add_right _ _) hnp)
  root := hroot
  edges := hedges

theorem edge_set_edge (k : Nat) (hk : k < s.kids.length) (m : Ptr) (j : Nat) :
    BstSet.edge { s with kids := s.kids.modify k (fun kid => kid.setEdge m) } j =
      if j = k then m else s.edge j := by
  unfold BstSet.edge
  split
  · rename_i hj
    subst hj
    simp [hk]
  · rename_i hj
    simp [List.getElem?_modify_ne _ s.kids (Ne.symm hj)]

/-- `*npp = node_new(bp)` hangs up a fresh node. -/
theorem set_new_spec (h : Forest s tree) (hv : s.Valid npp) :
    ∃ s', s.setNew npp = .ok s' ∧ Forest s' tree ∧ s'.kids.length = s.kids.length ∧
      trieOf s' tree = (trieOf s tree).attach (slotOf npp) s.nodes.length := by
  have hgrow : ∀ np, np < s.nodes.length → np < (s.nodes ++ [(⟨none⟩ : Node)]).length := by
    intro np hnp
    rw [List.length_append]
    exact Nat.lt_add_right 1 hnp
  have hnew : s.nodes.length < (s.nodes ++ [(⟨none⟩ : Node)]).length := by
    simp
  cases npp with
  | root =>
    refine ⟨_, rfl, h.grow rfl h.held ?_ ?_, rfl, rfl⟩
    · intro np hr
      cases hr
      exact hnew
    · exact fun k np he => hgrow np (h.edges k np he)
  | edge k =>
    have hk : k < s.kids.length := hv
    let s' : BstSet := { s with
      psBytes := s.psBytes + sizeofNode
      nodes := s.nodes ++ [⟨none⟩]
      kids := s.kids.modify k (fun kid => kid.setEdge (some s.nodes.length)) }
    have hedge : ∀ j, s'.edge j = if j = k then some s.nodes.length else s.edge j :=
      edge_set_edge k hk _
    refine ⟨s', ?_, h.grow rfl ?_ ?_ ?_, List.length_modify .., ?_⟩
    · simp [BstSet.setNew, nodeNew, BstSet.writeNode, assign_lt hk, s']
    · exact fun np => (h.held np).set_edge k _
    · exact fun np hr => hgrow np (h.root np hr)
    · intro j np he
      rw [hedge] at he
      split at he
      · cases he
        exact hnew
      · exact hgrow np (h.edges j np he)
    · have hfun : s'.edge = fun j => if j = k then some s.nodes.length else s.edge j :=
        funext hedge
      simp only [trieOf, hfun]
      rfl

theorem edge_append {kids' : List Kid} (hedges : kids'.map Kid.edge = s.kids.map Kid.edge ++ [none])
    (nodes : List Node) (k : Nat) : BstSet.edge { s with nodes := nodes, kids := kids' } k =
      if k = s.kids.length then none else s.edge k := by
  rw [edge_eq, edge_eq, hedges]
  split
  · rename_i hk
    simp [hk]
  · rename_i hk
    rcases Nat.lt_or_gt_of_ne hk with hlt | hgt
    · rw [List.getElem?_append_left (by rwa [List.length_map])]
    · rw [List.getElem?_append_right (by rw [List.length_map]; omega)]
      simp [List.getElem?_eq_none (Nat.le_of_lt hgt), Nat.sub_ne_zero_of_lt hgt]

/-- The tree of np replaced by one with a further kid. -/
theorem Forest.replace (h : Forest s tree) (hnp : np < s.nodes.length) {T : KeyTree Nat PtrT}
    {kids' : List Kid} {n : Nat} (hheld : TreeAt kids' none T) (hnodup : T.keys.Nodup)
    (hsorted : T.Sorted) (hcolors : KeyTree.RB .black n T)
    (hkeys : ∀ k, k ∈ T.keys ↔ k = s.kids.length ∨ k ∈ (tree np).keys)
    (hedges : kids'.map Kid.edge = s.kids.map Kid.edge ++ [none])
    (hothers : ∀ k, k < s.kids.length → k ∉ (tree np).keys → kids'[k]? = s.kids[k]?) :
    Forest { s with nodes := s.nodes.set np ⟨T.top⟩, kids := kids' }
      (Function.update tree np T) where
  node := by
    intro m node hm
    rw [List.getElem?_set] at hm
    split at hm
    · rename_i he
      cases hm
      rw [← he, Function.update_self]
    · rename_i he
      rw [Function.update_of_ne (Ne.symm he)]
      exact h.node m node hm
  held := by
    refine (Function.forall_update_iff tree (fun _ t => TreeAt kids' none t)).mpr ⟨hheld, ?_⟩
    intro m hm
    refine (h.held m).congr (fun k hk => hothers k (h.keys_lt hk) ?_)
    exact fun hk' => hm (h.apart m np k hk hk')
  nodup := (Function.forall_update_iff tree (fun _ t => t.keys.Nodup)).mpr
    ⟨hnodup, fun m _ => h.nodup m⟩
  apart := by
    have hmem : ∀ m, ∀ k ∈ (Function.update tree np T m).keys,
        k ∈ (tree m).keys ∨ m = np ∧ k = s.kids.length := by
      refine (Function.forall_update_iff tree
        (fun m t => ∀ k ∈ t.keys, k ∈ (tree m).keys ∨ m = np ∧ k = s.kids.length)).mpr ⟨?_, ?_⟩
      · intro k hk
        exact ((hkeys k).mp hk).symm.imp_right (fun he => ⟨rfl, he⟩)
      · exact fun m _ k hk => Or.inl hk
    intro m m' k hm hm'
    rcases hmem m k hm with hk | ⟨he, hk⟩ <;> rcases hmem m' k hm' with hk' | ⟨he', hk'⟩
    · exact h.apart m m' k hk hk'
    · exact absurd (h.keys_lt hk) (Nat.not_lt_of_ge (Nat.le_of_eq hk'.symm))
    · exact absurd (h.keys_lt hk') (Nat.not_lt_of_ge (Nat.le_of_eq hk.symm))
    · exact he.trans he'.symm
  sorted := (Function.forall_update_iff tree (fun _ t => t.Sorted)).mpr
    ⟨hsorted, fun m _ => h.sorted m⟩
  colors := (Function.forall_update_iff tree (fun _ t => ∃ n, KeyTree.RB .black n t)).mpr
    ⟨⟨n, hcolors⟩, fun m _ => h.colors m⟩
  absent := by
    intro m hm
    rw [List.length_set] at hm
    rw [Function.update_of_ne (Nat.ne_of_gt (Nat.lt_of_lt_of_le hnp hm))]
    exact h.absent m hm
  root := by
    intro m hm
    rw [List.length_set]
    exact h.root m hm
  edges := by
    intro k m hm
    rw [edge_append hedges] at hm
    rw [List.length_set]
    split at hm
    · cases hm
    · exact h.edges k m hm

/-- A missing chunk at np gets a new kid, in the tree and in the trie. -/
theorem Forest.insert (h : Forest s tree) (hnp : np < s.nodes.length)
    (hf : (tree np).find c = none) (ho : Path.Outer ((tree np).path c []))
    (hfuel : s.kids.length + 2 ≤ fuel) :
    ∃ s' tree', kidGetOrSet fuel s np c = .ok (s', s.kids.length) ∧ Forest s' tree' ∧
      s'.kids.length = s.kids.length + 1 ∧
      trieOf s' tree' = (trieOf s tree).insert np c s.kids.length := by
  obtain ⟨n, hrb⟩ := h.colors np
  have hfuel' : (tree np).keys.length + 2 ≤ fuel :=
    Nat.le_trans (Nat.add_le_add_right (h.length_le np) 2) hfuel
  obtain ⟨kids', hrun, hheld, hnodup, hedges, hothers⟩ :=
    kid_get_or_set_new (h.get hnp) (h.held np) (h.nodup np) (h.sorted np) hrb hf ho hfuel'
  obtain ⟨m, hrb'⟩ := KeyTree.insert_rb (k := s.kids.length) hrb hf ho
  refine ⟨_, _, hrun, h.replace hnp hheld hnodup (KeyTree.insert_inorder (h.sorted np) hf ho).1 hrb'
    (KeyTree.insert_keys (h.sorted np) hf ho) hedges hothers, ?_, ?_⟩
  · have hlen := congrArg List.length hedges
    simpa using hlen
  · have hkid : (fun np' => (Function.update tree np ((tree np).insert s.kids.length c) np').find) =
        fun np' c' => if np' = np ∧ c' = c then some s.kids.length else (tree np').find c' := by
      funext np' c'
      rcases eq_or_ne np' np with rfl | hne
      · simp [KeyTree.insert_find (h.sorted np') hf ho]
      · simp [hne]
    have hedge := funext (edge_append hedges
      (s.nodes.set np ⟨((tree np).insert s.kids.length c).top⟩))
    simp only [trieOf, hkid, hedge, Trie.insert]

end

end Mepl
