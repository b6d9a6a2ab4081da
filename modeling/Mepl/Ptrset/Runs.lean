import Mepl.Ptrset.Forest

namespace Mepl
open Base

/-- The tree below kp, as deep as n. -/
def kidsTree : Nat → List Kid → Ptr → KeyTree Nat PtrT
  | 0, _, _ => .nil
  | _ + 1, _, none => .nil
  | n + 1, kids, some k =>
    match kids[k]? with
    | none => .nil
    | some kid => .node kid.color k kid.v (kidsTree n kids kid.left) (kidsTree n kids kid.right)

/-- The kids of the node np as a tree. -/
def BstSet.tree (s : BstSet) (np : Nat) : KeyTree Nat PtrT :=
  match s.nodes[np]? with
  | none => .nil
  | some node => kidsTree s.kids.length s.kids node.kids

/-- Where the first missing chunk goes, kid_fix meets no inner child. -/
def AddOk (s : BstSet) : Ptr → List PtrT → Prop
  | none, _ => True
  | some _, [] => True
  | some np, c :: cs =>
    match (s.tree np).find c with
    | some k => AddOk s (s.edge k) cs
    | none => Path.Outer ((s.tree np).path c [])

instance decidableAddOk (s : BstSet) : (kp : Ptr) → (cs : List PtrT) → Decidable (AddOk s kp cs)
  | none, cs => isTrue (by cases cs <;> trivial)
  | some _, [] => isTrue trivial
  | some np, c :: cs =>
    match hf : (s.tree np).find c with
    | some k =>
      have := decidableAddOk s (s.edge k) cs
      decidable_of_iff (AddOk s (s.edge k) cs) (by rw [AddOk, hf])
    | none => decidable_of_iff (Path.Outer ((s.tree np).path c [])) (by rw [AddOk, hf])

/-- Every add of the run does so. -/
def RunOk (fuel : Nat) : BstSet → List Addr → Prop
  | _, [] => True
  | s, a :: adds => AddOk s s.root a.1 ∧ ∀ s', bstSetAdd fuel s a = .ok s' → RunOk fuel s' adds

instance decidableRunOk (fuel : Nat) :
    (s : BstSet) → (adds : List Addr) → Decidable (RunOk fuel s adds)
  | _, [] => isTrue trivial
  | s, a :: adds =>
    match ha : bstSetAdd fuel s a with
    | .error e => decidable_of_iff (AddOk s s.root a.1) (by simp [RunOk, ha])
    | .ok s' =>
      have := decidableRunOk fuel s' adds
      decidable_of_iff (AddOk s s.root a.1 ∧ RunOk fuel s' adds) (by simp [RunOk, ha])

section
variable {s : BstSet} {tree : Nat → KeyTree Nat PtrT} {np fuel : Nat} {npp : NodeSlot} {c : PtrT}
  {cs : List PtrT}

theorem add_ok_none : AddOk s none cs := by
  cases cs <;> trivial

theorem kids_tree {kids : List Kid} {parent : Ptr} {t : KeyTree Nat PtrT} (h : TreeAt kids parent t)
    {n : Nat} (hn : t.keys.length ≤ n) : kidsTree n kids t.top = t := by
  induction t generalizing parent n with
  | nil => cases n <;> rfl
  | node col k v l r ihl ihr =>
    rw [length_keys_node] at hn
    obtain ⟨m, rfl⟩ : ∃ m, n = m + 1 := ⟨n - 1, by omega⟩
    obtain ⟨⟨kid, hkid, -, hl, hr, hv, hc⟩, htl, htr⟩ := h
    have hl : kid.left = l.top := hl
    have hr : kid.right = r.top := hr
    have htl := ihl htl (n := m) (by omega)
    have htr := ihr htr (n := m) (by omega)
    rw [← hl] at htl
    rw [← hr] at htr
    simp only [KeyTree.top, kidsTree, hkid, hv, hc, htl, htr]

/-- The trees of a forest are the ones that its state shows. -/
theorem Forest.tree_eq (h : Forest s tree) (np : Nat) : s.tree np = tree np := by
  unfold BstSet.tree
  cases hnode : s.nodes[np]? with
  | none => exact (h.absent np (List.getElem?_eq_none_iff.mp hnode)).symm
  | some node =>
    simp only [h.node np node hnode]
    exact kids_tree (h.held np) (h.length_le np)

/-- kid_get_or_set finds the kid or makes it. -/
theorem kid_get_or_set_spec (h : Forest s tree) (hnp : np < s.nodes.length)
    (hok : AddOk s (some np) (c :: cs)) (hfuel : s.kids.length + 2 ≤ fuel) :
    ∃ s' tree' k, kidGetOrSet fuel s np c = .ok (s', k) ∧ Forest s' tree' ∧
      (trieOf s tree).GetOrSet np c (trieOf s' tree') k ∧ s'.Valid (.edge k) ∧
      s'.kids.length ≤ s.kids.length + 1 ∧ AddOk s' (s'.edge k) cs := by
  rw [AddOk, h.tree_eq np] at hok
  cases hf : (tree np).find c with
  | some k =>
    rw [hf] at hok
    have hfuel' := h.length_le np
    exact ⟨s, tree, k, kid_get_or_set_found (h.get hnp) (h.held np) (by omega) hf, h, .there hf,
      h.find_lt hf, Nat.le_succ _, hok⟩
  | none =>
    rw [hf] at hok
    obtain ⟨s', tree', hrun, h', hlen, htrie⟩ := h.insert hnp hf hok hfuel
    have hfresh : ∀ n d, (trieOf s tree).kid n d ≠ some s.kids.length :=
      fun n d hk => Nat.lt_irrefl _ (h.find_lt hk)
    have hedge : s'.edge s.kids.length = none := by
      have he := congrFun (congrArg Trie.edge htrie) s.kids.length
      simpa [trieOf, Trie.insert] using he
    have hvalid : s.kids.length < s'.kids.length := by omega
    refine ⟨s', tree', s.kids.length, hrun, h', ?_, hvalid, Nat.le_of_eq hlen, ?_⟩
    · rw [htrie]
      exact .new hf hfresh
    · rw [hedge]
      exact add_ok_none

/-- The node at a slot, made where there is none. -/
theorem ensure_node_spec (h : Forest s tree) (hv : s.Valid npp)
    (hok : AddOk s ((trieOf s tree).read (slotOf npp)) (c :: cs)) :
    ∃ s' np, (if ((trieOf s tree).read (slotOf npp)).isNone then s.setNew npp else pure s) =
        .ok s' ∧ Forest s' tree ∧ (trieOf s tree).Ensure (slotOf npp) (trieOf s' tree) np ∧
      s'.readNode npp = .ok (some np) ∧ np < s'.nodes.length ∧ s'.kids.length = s.kids.length ∧
      AddOk s' (some np) (c :: cs) := by
  cases hr : (trieOf s tree).read (slotOf npp) with
  | some np =>
    rw [hr] at hok
    refine ⟨s, np, rfl, h, .there hr, ?_, h.read_lt hr, rfl, hok⟩
    rw [read_node tree hv, hr]
  | none =>
    obtain ⟨s', hrun, h', hlen, htrie⟩ := set_new_spec h hv
    have hv' : s'.Valid npp := by
      cases npp with
      | root => trivial
      | edge k => exact Nat.lt_of_lt_of_eq hv hlen.symm
    have hread : (trieOf s' tree).read (slotOf npp) = some s.nodes.length := by
      rw [htrie, Trie.read_attach]
    have hnil : tree s.nodes.length = .nil := h.absent _ (Nat.le_refl _)
    refine ⟨s', s.nodes.length, hrun, h', ?_, ?_, h'.read_lt hread, hlen, ?_⟩
    · rw [htrie]
      exact .new hr (fresh_node h)
    · rw [read_node tree hv', hread]
    · rw [AddOk, h'.tree_eq, hnil]
      trivial

/-- An add that meets no inner child makes the way for its chunks. -/
theorem do_bst_set_add_spec (cs : List PtrT) (h : Forest s tree) (hv : s.Valid npp)
    (hok : AddOk s ((trieOf s tree).read (slotOf npp)) cs)
    (hfuel : s.kids.length + cs.length < fuel) :
    ∃ s' tree', doBstSetAdd fuel s npp cs = .ok s' ∧ Forest s' tree' ∧
      (trieOf s tree).Adds (slotOf npp) cs (trieOf s' tree') ∧
      s'.kids.length ≤ s.kids.length + cs.length := by
  induction cs generalizing s tree npp with
  | nil =>
    obtain ⟨s', hrun, h', hlen, htrie⟩ := set_new_spec h hv
    refine ⟨s', tree, hrun, h', ?_, Nat.le_of_eq hlen⟩
    rw [htrie]
    exact .done (fresh_node h)
  | cons c cs ih =>
    rw [List.length_cons] at hfuel ⊢
    obtain ⟨s1, np, hrun1, h1, hensure, hread, hnp, hlen1, hok1⟩ := ensure_node_spec h hv hok
    have hfuel1 : s1.kids.length + 2 ≤ fuel := by omega
    obtain ⟨s2, tree2, k, hrun2, h2, hget, hk, hlen2, hok2⟩ :=
      kid_get_or_set_spec h1 hnp hok1 hfuel1
    obtain ⟨s3, tree3, hrun3, h3, hadds, hlen3⟩ := ih h2 hk hok2 (by omega)
    refine ⟨s3, tree3, ?_, h3, .step hensure hget hadds, by omega⟩
    rw [doBstSetAdd, read_node tree hv, ok_bind, hrun1]
    simp only [ok_bind, hread, hrun2, hrun3]

end

/-- Every node has a red-black search tree of kids, with a black root and
parent pointers that match. -/
def RedBlackKids (s : BstSet) : Prop :=
  ∀ (np : Nat) (node : Node), s.nodes[np]? = some node → ∃ t n, node.kids = KeyTree.top t ∧
    TreeAt s.kids none t ∧ t.keys.Nodup ∧ t.Sorted ∧ KeyTree.RB .black n t

/-- What a run keeps: the trees, and a trie of the addresses added. -/
def RunInv (s : BstSet) (added : List Addr) : Prop :=
  ∃ tree key, Forest s tree ∧ (trieOf s tree).Ok key ∧ s.kids.length ≤ ADDR_LEN * added.length ∧
    ∀ a : Addr, (trieOf s tree).has s.root a.1 = true ↔ a ∈ added

section
variable {s : BstSet} {added : List Addr} {fuel : Nat}

theorem run_inv_new : RunInv bstSetNew [] := by
  have hforest : Forest bstSetNew (fun _ => .nil) := by
    constructor <;> simp [bstSetNew, TreeAt, KeyTree.Sorted, KeyTree.inorder, BstSet.edge]
    exact ⟨0, .nil⟩
  refine ⟨fun _ => .nil, fun _ => [], hforest, ?_, Nat.zero_le _, ?_⟩
  · constructor <;> simp [trieOf, bstSetNew, KeyTree.find]
  · intro a
    obtain ⟨cs, hcs⟩ := a
    cases cs with
    | nil => cases hcs
    | cons c cs => simp [bstSetNew, Trie.has]

theorem RunInv.add (h : RunInv s added) {a : Addr} (hok : AddOk s s.root a.1)
    (hfuel : ADDR_LEN * (added.length + 1) < fuel) :
    ∃ s', bstSetAdd fuel s a = .ok s' ∧ RunInv s' (added ++ [a]) := by
  obtain ⟨tree, key, hforest, htrie, hlen, hhas⟩ := h
  rw [Nat.mul_add, Nat.mul_one] at hfuel
  have hfuel' : s.kids.length + a.1.length < fuel := by
    rw [a.2]
    omega
  have hvalid : s.Valid .root := trivial
  obtain ⟨s', tree', hrun, hforest', hadds, hlen'⟩ :=
    do_bst_set_add_spec a.1 hforest hvalid hok hfuel'
  obtain ⟨key', htrie', hhas'⟩ := hadds.has htrie rfl
  refine ⟨s', hrun, tree', key', hforest', htrie', ?_, ?_⟩
  · rw [a.2] at hlen'
    rw [List.length_append, List.length_singleton, Nat.mul_add, Nat.mul_one]
    omega
  · intro b
    have hlenb : b.1.length = ([] : List PtrT).length + a.1.length := by
      rw [a.2, b.2]
      rfl
    have hb := hhas' b.1 hlenb
    rw [List.nil_append, Subtype.val_inj] at hb
    rw [List.mem_append, List.mem_singleton, ← hhas b]
    exact hb

/-- Induction on the adds, every one from a state that the ones before left. -/
theorem run_spec (adds : List Addr) (h : RunInv s added) (hok : RunOk fuel s adds)
    (hfuel : ADDR_LEN * (added.length + adds.length) < fuel) :
    ∃ s', adds.foldlM (bstSetAdd fuel) s = .ok s' ∧ RunInv s' (added ++ adds) := by
  induction adds generalizing s added with
  | nil => exact ⟨s, rfl, by rwa [List.append_nil]⟩
  | cons a adds ih =>
    obtain ⟨hadd, hrest⟩ := hok
    rw [List.length_cons] at hfuel
    have hfirst : ADDR_LEN * (added.length + 1) < fuel := by
      refine Nat.lt_of_le_of_lt (Nat.mul_le_mul_left _ ?_) hfuel
      omega
    obtain ⟨s1, hrun1, h1⟩ := h.add hadd hfirst
    have hlen : (added ++ [a]).length + adds.length = added.length + (adds.length + 1) := by
      rw [List.length_append, List.length_singleton]
      omega
    obtain ⟨s2, hrun2, h2⟩ := ih h1 (hrest s1 hrun1) (by rwa [hlen])
    refine ⟨s2, ?_, by rwa [List.append_assoc] at h2⟩
    rw [List.foldlM_cons, hrun1]
    exact hrun2

theorem RunInv.red_black (h : RunInv s added) : RedBlackKids s := by
  obtain ⟨tree, key, hforest, -⟩ := h
  intro np node hnode
  obtain ⟨n, hrb⟩ := hforest.colors np
  exact ⟨tree np, n, hforest.node np node hnode, hforest.held np, hforest.nodup np,
    hforest.sorted np, hrb⟩

theorem RunInv.has (h : RunInv s added) (hfuel : ADDR_LEN * added.length < fuel) (a : Addr) :
    bstSetHas fuel s a = .ok (decide (a ∈ added)) := by
  obtain ⟨tree, key, hforest, -, hlen, hhas⟩ := h
  have hkids : s.kids.length < fuel := Nat.lt_of_le_of_lt hlen hfuel
  rw [bstSetHas, do_bst_set_has_spec hforest hkids a.1 s.root hforest.root]
  congr 1
  rw [Bool.eq_iff_iff, hhas a, decide_eq_true_iff]

end

/-- As long as no add meets an inner child, the set does what it is for:
every add returns, every node keeps a red-black tree of its kids, and exactly
the addresses added are there. -/
theorem bst_set_keeps_trees (fuel : Nat) (adds : List Addr) (hfuel : ADDR_LEN * adds.length < fuel)
    (hok : RunOk fuel bstSetNew adds) : ∃ s, bstSetRun fuel adds = .ok s ∧ RedBlackKids s ∧
      ∀ a, bstSetHas fuel s a = .ok (decide (a ∈ adds)) := by
  have hfuel' : ADDR_LEN * (([] : List Addr).length + adds.length) < fuel := by
    rwa [List.length_nil, Nat.zero_add]
  obtain ⟨s, hrun, hinv⟩ := run_spec adds run_inv_new hok hfuel'
  rw [List.nil_append] at hinv
  exact ⟨s, hrun, hinv.red_black, hinv.has hfuel⟩

/-- Addresses that differ in their first chunk only. -/
def lowAddr (c : PtrT) : Addr := ⟨[c, 0, 0, 0], rfl⟩

theorem bst_set_keeps_trees_ascending :
    ∃ s, bstSetRun 13 [lowAddr 1, lowAddr 2, lowAddr 3] = .ok s ∧ RedBlackKids s ∧
      ∀ a, bstSetHas 13 s a = .ok (decide (a ∈ [lowAddr 1, lowAddr 2, lowAddr 3])) := by
  apply bst_set_keeps_trees
  · decide
  · decide

/-- An inner child: kid_fix goes on with the parent it had before the first
rotation, 2 comes up as a red root, and the next round reads through its NULL
parent. -/
theorem bst_set_inner_child :
    bstSetRun 13 [lowAddr 3, lowAddr 1, lowAddr 2] = .error .fault := by
  decide

end Mepl
