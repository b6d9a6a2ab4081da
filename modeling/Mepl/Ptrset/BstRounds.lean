import Mathlib.Data.Fintype.Card
import Mepl.Ptrset.Runs

namespace Mepl
open Base

section
variable {kids : List Kid} {parent : Ptr} {t : KeyTree Nat PtrT} {c : PtrT} {n m : Nat}

/-- A search goes down one node a round, and one more to stop. -/
theorem kid_find_loop_rounds (h : TreeAt kids parent t) (hn : t.height < n) :
    kidFindLoop n kids t.top c = .ok (t.find c) := by
  induction t generalizing parent n with
  | nil =>
    obtain ⟨m, rfl⟩ : ∃ m, n = m + 1 := ⟨n - 1, by omega⟩
    rfl
  | node col k v l r ihl ihr =>
    rw [KeyTree.height] at hn
    obtain ⟨m, rfl⟩ : ∃ m, n = m + 1 := ⟨n - 1, by omega⟩
    obtain ⟨⟨kid, hkid, -, hl, hr, hv, -⟩, htl, htr⟩ := h
    have hl : kid.left = l.top := hl
    have hr : kid.right = r.top := hr
    rw [KeyTree.top, kidFindLoop, load_some hkid, ok_bind, hv, hl, hr, KeyTree.find]
    split
    · exact ihl htl (by omega)
    · split
      · exact ihr htr (by omega)
      · rfl

theorem kid_slot_loop_rounds {s : BstSet} {np : Nat} {p : Path Nat PtrT} (hn : t.height < n)
    (hnode : s.nodes[np]? = some ⟨(Path.plug p t).top⟩)
    (h : TreeAt s.kids none (Path.plug p t)) :
    kidSlotLoop n s (slotAt np p) (Path.above p) c = .ok (match t.find c with
      | some k => .inl k
      | none => .inr (slotAt np (t.path c p), Path.above (t.path c p))) := by
  induction t generalizing p n with
  | nil =>
    obtain ⟨m, rfl⟩ : ∃ m, n = m + 1 := ⟨n - 1, by omega⟩
    rw [kidSlotLoop, read_slot hnode h]
    rfl
  | node col k v l r ihl ihr =>
    rw [KeyTree.height] at hn
    obtain ⟨m, rfl⟩ : ∃ m, n = m + 1 := ⟨n - 1, by omega⟩
    obtain ⟨⟨⟨kid, hkid, -, -, -, hv, -⟩, -⟩, -⟩ := tree_at_plug.mp h
    rw [kidSlotLoop, read_slot hnode h, ok_bind, KeyTree.top]
    simp only [load_some hkid, ok_bind, hv, KeyTree.find, KeyTree.path]
    split
    · exact ihl (p := ⟨.left, col, k, v, r⟩ :: p) (by omega) hnode h
    · split
      · exact ihr (p := ⟨.right, col, k, v, l⟩ :: p) (by omega) hnode h
      · rfl

/-- What kid_fix returns, it returns with more rounds to spare. -/
theorem kid_fix_loop_more {root p : Ptr} {r : List Kid × Ptr}
    (h : kidFixLoop n kids root p = .ok r) (hm : n ≤ m) : kidFixLoop m kids root p = .ok r := by
  induction n generalizing m kids root p with
  | zero => cases h
  | succ n ih =>
    obtain ⟨m, rfl⟩ : ∃ k, m = k + 1 := ⟨m - 1, by omega⟩
    have hm : n ≤ m := Nat.le_of_succ_le_succ hm
    rw [kidFixLoop] at h ⊢
    split at h
    · rename_i hroot
      rw [if_pos hroot]
      exact h
    · rename_i hroot
      rw [if_neg hroot]
      simp only [bind_ok] at h ⊢
      obtain ⟨kid, hkid, par, hpar, h⟩ := h
      refine ⟨kid, hkid, par, hpar, ?_⟩
      split at h
      · rename_i hred
        rw [if_pos hred]
        simp only [bind_ok] at h ⊢
        obtain ⟨par', hpar', gp, hgp, step, hstep, h⟩ := h
        exact ⟨par', hpar', gp, hgp, step, hstep, ih h hm⟩
      · rename_i hred
        rw [if_neg hred]
        exact h

theorem kid_fix_more {root p : Ptr} {r : List Kid × Ptr} (h : kidFix n kids root p = .ok r)
    (hm : n ≤ m) : kidFix m kids root p = .ok r := by
  rw [kidFix, bind_ok] at h ⊢
  obtain ⟨step, hloop, h⟩ := h
  exact ⟨step, kid_fix_loop_more hloop hm, h⟩

end

section
variable {s : BstSet} {tree : Nat → KeyTree Nat PtrT} {np n m : Nat} {npp : NodeSlot} {c : PtrT}
  {cs : List PtrT}

theorem kid_find_rounds (h : Forest s tree) (hnp : np < s.nodes.length)
    (hn : (tree np).height < n) : kidFind n s np c = .ok ((tree np).find c) := by
  rw [kidFind, load_some (h.get hnp), ok_bind]
  exact kid_find_loop_rounds (h.held np) hn

/-- kid_get_or_set takes no more rounds than the tree is high, and two. -/
theorem kid_get_or_set_rounds (h : Forest s tree) (hnp : np < s.nodes.length)
    (hok : AddOk s (some np) (c :: cs)) (hn : (tree np).height + 2 ≤ n) (hm : n ≤ m) :
    kidGetOrSet n s np c = kidGetOrSet m s np c := by
  rw [AddOk, h.tree_eq np] at hok
  have hnode := h.get hnp
  have hloop : ∀ k, n ≤ k → kidSlotLoop k s (.kids np) none c = .ok (match (tree np).find c with
      | some k => .inl k
      | none => .inr (slotAt np ((tree np).path c []), Path.above ((tree np).path c []))) :=
    fun k hk => kid_slot_loop_rounds (p := []) (by omega) hnode (h.held np)
  rw [kidGetOrSet, kidGetOrSet, hloop n (Nat.le_refl n), hloop m hm]
  cases hf : (tree np).find c with
  | some k => rfl
  | none =>
    rw [hf] at hok
    obtain ⟨black, hrb⟩ := h.colors np
    obtain ⟨hplug, -, -⟩ := KeyTree.path_spec hf [] (h.sorted np) (by simp [Path.before])
      (by simp [Path.after])
    have hlen := KeyTree.path_length_height (tree np) c []
    have hhole := KeyTree.path_hole hf hrb .top
    have hheld := h.held np
    have hnodup := h.nodup np
    rw [Path.plug] at hplug
    generalize (tree np).path c [] = q at hplug hlen hhole hok ⊢
    rw [← hplug] at hnode hheld hnodup
    have hlt := (List.getElem?_eq_some_iff.mp hnode).1
    have hhung := hung_tree (c := c) hheld hnodup
    have hold : ∀ k ∈ Path.keys q, k < s.kids.length :=
      fun k hk => hheld.lt k (Path.mem_keys_plug.mpr (Or.inr hk))
    have hnodup' : (Path.plug q (.node .red s.kids.length c .nil .nil)).keys.Nodup := by
      obtain ⟨-, hnq, -⟩ := Path.nodup_keys_plug.mp hnodup
      refine Path.nodup_keys_plug.mpr ⟨List.nodup_singleton _, hnq, ?_⟩
      intro k hk hkq
      rw [List.mem_singleton.mp hk] at hkq
      exact Nat.lt_irrefl _ (hold _ hkq)
    have hfix : q.length + 2 ≤ n := by
      rw [List.length_nil, Nat.add_zero] at hlen
      omega
    obtain ⟨kids', hrun, -⟩ := kid_fix_spec hhung hnodup' rfl hhole hok hfix
    have hread : BstSet.readKid { s with
        nodes := s.nodes.set np ⟨(Path.plug q (.node .red s.kids.length c .nil .nil)).top⟩
        kids := hung s.kids q c } (.kids np) =
        .ok (Path.plug q (.node .red s.kids.length c .nil .nil)).top := by
      simp [BstSet.readKid, load, hlt]
    simp only [ok_bind, write_slot hnode hheld, hread, hrun, kid_fix_more hrun hm]

/-- How many rounds are enough for the loops of a set with so many kids: a node
has at most one kid for each chunk. -/
def roundsFor (kids : Nat) : Nat := 2 * Nat.log2 (min kids (2 ^ 16) + 1) + 2

theorem log2_le_log2 {a b : Nat} (h : a ≤ b) : Nat.log2 (a + 1) ≤ Nat.log2 (b + 1) := by
  have hpow : 2 ^ Nat.log2 (a + 1) ≤ a + 1 := Nat.log2_self_le (Nat.succ_ne_zero a)
  rw [Nat.le_log2 (Nat.succ_ne_zero b)]
  omega

theorem rounds_for_mono {a b : Nat} (h : a ≤ b) : roundsFor a ≤ roundsFor b := by
  have hlog : Nat.log2 (min a (2 ^ 16) + 1) ≤ Nat.log2 (min b (2 ^ 16) + 1) :=
    log2_le_log2 (min_le_min_right _ h)
  simp only [roundsFor]
  omega

theorem rounds_for_le (kids : Nat) : roundsFor kids ≤ 34 := by
  have hlog : Nat.log2 (min kids (2 ^ 16) + 1) ≤ Nat.log2 (2 ^ 16 + 1) :=
    log2_le_log2 (min_le_right _ _)
  have hmax : Nat.log2 (2 ^ 16 + 1) = 16 := by decide
  simp only [roundsFor]
  omega

theorem sorted_length {t : KeyTree Nat PtrT} (h : t.Sorted) : t.keys.length ≤ 2 ^ 16 := by
  have hnodup : (t.inorder.map Prod.snd).Nodup :=
    (List.pairwise_map.mpr h).imp fun hlt => ne_of_lt hlt
  have hcard := hnodup.length_le_card
  rw [List.length_map, Fintype.card_fin] at hcard
  rwa [KeyTree.keys, List.length_map]

theorem Forest.height_rounds (h : Forest s tree) (np : Nat) :
    (tree np).height + 2 ≤ roundsFor s.kids.length := by
  obtain ⟨black, hrb⟩ := h.colors np
  have hheight := hrb.height_log
  have hmin : (tree np).keys.length ≤ min s.kids.length (2 ^ 16) :=
    le_min (h.length_le np) (sorted_length (h.sorted np))
  have hlog := log2_le_log2 hmin
  simp only [roundsFor]
  omega

/-- An add with few rounds is the one with many. -/
theorem do_bst_set_add_rounds (cs : List PtrT) (h : Forest s tree) (hv : s.Valid npp)
    (hok : AddOk s ((trieOf s tree).read (slotOf npp)) cs)
    (hn : roundsFor (s.kids.length + cs.length) ≤ n) (hm : n ≤ m)
    (hfuel : s.kids.length + cs.length < m) :
    doBstSetAdd n s npp cs = doBstSetAdd m s npp cs := by
  induction cs generalizing s tree npp with
  | nil => rfl
  | cons c cs ih =>
    rw [List.length_cons] at hn hfuel
    obtain ⟨s1, np, hrun1, h1, -, hread, hnp, hlen1, hok1⟩ := ensure_node_spec h hv hok
    have hheight : (tree np).height + 2 ≤ n := by
      refine (h1.height_rounds np).trans ((rounds_for_mono ?_).trans hn)
      omega
    have hrounds := kid_get_or_set_rounds h1 hnp hok1 hheight hm
    obtain ⟨s2, tree2, k, hrun2, h2, -, hk, hlen2, hok2⟩ :=
      kid_get_or_set_spec h1 hnp hok1 (by omega : s1.kids.length + 2 ≤ m)
    have hn2 : roundsFor (s2.kids.length + cs.length) ≤ n := by
      refine (rounds_for_mono ?_).trans hn
      omega
    have hrest := ih h2 hk hok2 hn2 (by omega)
    rw [doBstSetAdd, doBstSetAdd, read_node tree hv]
    simp only [ok_bind, hrun1, hread, hrounds, hrun2, hrest]

theorem do_bst_set_has_rounds (h : Forest s tree) (hn : roundsFor s.kids.length ≤ n)
    (cs : List PtrT) (kp : Ptr) (hkp : ∀ np, kp = some np → np < s.nodes.length) :
    doBstSetHas n s kp cs = .ok ((trieOf s tree).has kp cs) := by
  induction cs generalizing kp with
  | nil =>
    rw [doBstSetHas, Trie.has]
    rfl
  | cons c cs ih =>
    cases kp with
    | none => rfl
    | some np =>
      have hheight := (h.height_rounds np).trans hn
      rw [doBstSetHas, kid_find_rounds h (hkp np rfl) (by omega), ok_bind, Trie.has]
      cases hf : (tree np).find c with
      | none => simp [trieOf, hf]
      | some k =>
        have hk := h.find_lt hf
        have hedge : (trieOf s tree).edge k = s.kids[k].edge := by
          simp [trieOf, BstSet.edge, hk]
        have hkid : (trieOf s tree).kid np c = some k := hf
        simp only [hkid, load_lt hk, ok_bind, ← hedge]
        exact ih _ (fun m hm => h.edges k m hm)

variable {added : List Addr}

theorem RunInv.add_rounds (h : RunInv s added) {a : Addr} (hok : AddOk s s.root a.1)
    (hn : roundsFor (ADDR_LEN * (added.length + 1)) ≤ n) :
    ∃ s', bstSetAdd n s a = .ok s' ∧ RunInv s' (added ++ [a]) := by
  have hbig : ADDR_LEN * (added.length + 1) < max n (ADDR_LEN * (added.length + 1) + 1) :=
    lt_max_of_lt_right (Nat.lt_succ_self _)
  obtain ⟨s', hrun, h'⟩ := h.add hok hbig
  obtain ⟨tree, key, hforest, -, hlen, -⟩ := h
  have hkids : s.kids.length + a.1.length ≤ ADDR_LEN * (added.length + 1) := by
    rw [a.2, Nat.mul_add, Nat.mul_one]
    omega
  have hv : s.Valid .root := trivial
  refine ⟨s', ?_, h'⟩
  rw [← hrun]
  exact do_bst_set_add_rounds a.1 hforest hv hok ((rounds_for_mono hkids).trans hn)
    (le_max_left _ _) (by omega)

theorem run_rounds (adds : List Addr) (h : RunInv s added) (hok : RunOk n s adds)
    (hn : roundsFor (ADDR_LEN * (added.length + adds.length)) ≤ n) :
    ∃ s', adds.foldlM (bstSetAdd n) s = .ok s' ∧ RunInv s' (added ++ adds) := by
  induction adds generalizing s added with
  | nil => exact ⟨s, rfl, by rwa [List.append_nil]⟩
  | cons a adds ih =>
    obtain ⟨hadd, hrest⟩ := hok
    rw [List.length_cons] at hn
    have hfirst : roundsFor (ADDR_LEN * (added.length + 1)) ≤ n := by
      refine (rounds_for_mono (Nat.mul_le_mul_left _ ?_)).trans hn
      omega
    obtain ⟨s1, hrun1, h1⟩ := h.add_rounds hadd hfirst
    have hlen : (added ++ [a]).length + adds.length = added.length + (adds.length + 1) := by
      rw [List.length_append, List.length_singleton]
      omega
    obtain ⟨s2, hrun2, h2⟩ := ih h1 (hrest s1 hrun1) (by rwa [hlen])
    refine ⟨s2, ?_, by rwa [List.append_assoc] at h2⟩
    rw [List.foldlM_cons, hrun1]
    exact hrun2

end

/-- As long as no add meets an inner child, no loop of bst_set takes more rounds
than twice the logarithm of the kids a node can have: the run, and every
bst_set_has after it, returns with the loops cut off there. -/
theorem bst_set_rounds (n : Nat) (adds : List Addr)
    (hn : roundsFor (ADDR_LEN * adds.length) ≤ n) (hok : RunOk n bstSetNew adds) :
    ∃ s, bstSetRun n adds = .ok s ∧ ∀ a, bstSetHas n s a = .ok (decide (a ∈ adds)) := by
  have hn' : roundsFor (ADDR_LEN * (([] : List Addr).length + adds.length)) ≤ n := by
    rwa [List.length_nil, Nat.zero_add]
  obtain ⟨s, hrun, tree, key, hforest, -, hlen, hhas⟩ := run_rounds adds run_inv_new hok hn'
  rw [List.nil_append] at hlen hhas
  refine ⟨s, hrun, fun a => ?_⟩
  rw [bstSetHas, do_bst_set_has_rounds hforest ((rounds_for_mono hlen).trans hn) a.1 s.root
    hforest.root]
  congr 1
  rw [Bool.eq_iff_iff, hhas a, decide_eq_true_iff]

theorem bst_set_rounds_ascending :
    ∃ s, bstSetRun 34 [lowAddr 1, lowAddr 2, lowAddr 3] = .ok s ∧
      ∀ a, bstSetHas 34 s a = .ok (decide (a ∈ [lowAddr 1, lowAddr 2, lowAddr 3])) := by
  apply bst_set_rounds
  · exact rounds_for_le _
  · decide

end Mepl
