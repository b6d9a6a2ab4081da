import Mepl.Ptrset.Fix

namespace Mepl
open Base

theorem length_keys_node {c : Color} {k : Nat} {v : PtrT} {l r : KeyTree Nat PtrT} :
    (KeyTree.node c k v l r).keys.length = l.keys.length + r.keys.length + 1 := by
  simp [KeyTree.keys, KeyTree.inorder]
  omega

section
variable {kids : List Kid} {parent : Ptr} {t : KeyTree Nat PtrT} {c : PtrT} {fuel : Nat}

/-- The search is the one of the tree. -/
theorem kid_find_loop_spec (h : TreeAt kids parent t) (hfuel : t.keys.length < fuel) :
    kidFindLoop fuel kids t.top c = .ok (t.find c) := by
  induction t generalizing parent fuel with
  | nil =>
    obtain ⟨m, rfl⟩ : ∃ m, fuel = m + 1 := ⟨fuel - 1, by omega⟩
    rfl
  | node col k v l r ihl ihr =>
    rw [length_keys_node] at hfuel
    obtain ⟨m, rfl⟩ : ∃ m, fuel = m + 1 := ⟨fuel - 1, by omega⟩
    obtain ⟨⟨kid, hkid, -, hl, hr, hv, -⟩, htl, htr⟩ := h
    have hl : kid.left = l.top := hl
    have hr : kid.right = r.top := hr
    rw [KeyTree.top, kidFindLoop, load_some hkid, ok_bind, hv, hl, hr, KeyTree.find]
    split
    · exact ihl htl (by omega)
    · split
      · exact ihr htr (by omega)
      · rfl

/-- The slot at the end of a path below np. -/
def slotAt (np : Nat) : Path Nat PtrT → KidSlot
  | [] => .kids np
  | f :: _ => .child f.dir f.key

theorem read_slot {s : BstSet} {np : Nat} {p : Path Nat PtrT}
    (hnode : s.nodes[np]? = some ⟨(Path.plug p t).top⟩) (h : TreeAt s.kids none (Path.plug p t)) :
    s.readKid (slotAt np p) = .ok t.top := by
  cases p with
  | nil =>
    rw [slotAt, BstSet.readKid, load_some hnode]
    rfl
  | cons f p =>
    obtain ⟨-, ⟨kid, hkid, -, hchild, -⟩, -⟩ := tree_at_plug.mp h
    rw [slotAt, BstSet.readKid, load_some hkid, ok_bind, hchild]
    rfl

theorem kid_slot_loop_spec {s : BstSet} {np : Nat} {p : Path Nat PtrT}
    (hfuel : t.keys.length < fuel) (hnode : s.nodes[np]? = some ⟨(Path.plug p t).top⟩)
    (h : TreeAt s.kids none (Path.plug p t)) :
    kidSlotLoop fuel s (slotAt np p) (Path.above p) c = .ok (match t.find c with
      | some k => .inl k
      | none => .inr (slotAt np (t.path c p), Path.above (t.path c p))) := by
  induction t generalizing p fuel with
  | nil =>
    obtain ⟨m, rfl⟩ : ∃ m, fuel = m + 1 := ⟨fuel - 1, by omega⟩
    rw [kidSlotLoop, read_slot hnode h]
    rfl
  | node col k v l r ihl ihr =>
    rw [length_keys_node] at hfuel
    obtain ⟨m, rfl⟩ : ∃ m, fuel = m + 1 := ⟨fuel - 1, by omega⟩
    obtain ⟨⟨⟨kid, hkid, -, -, -, hv, -⟩, -⟩, -⟩ := tree_at_plug.mp h
    rw [kidSlotLoop, read_slot hnode h, ok_bind, KeyTree.top]
    simp only [load_some hkid, ok_bind, hv, KeyTree.find, KeyTree.path]
    split
    · exact ihl (p := ⟨.left, col, k, v, r⟩ :: p) (by omega) hnode h
    · split
      · exact ihr (p := ⟨.right, col, k, v, l⟩ :: p) (by omega) hnode h
      · rfl

variable {q : Path Nat PtrT}

/-- The kids with a new one at the hole of q. -/
def hung (kids : List Kid) (q : Path Nat PtrT) (c : PtrT) : List Kid :=
  relink (kids ++ [kidNew (Path.above q) c]) q (some kids.length)

theorem hung_old {k : Nat} (hk : k < kids.length) (hq : Path.above q ≠ some k) :
    (hung kids q c)[k]? = kids[k]? := by
  rw [hung, relink_other hq, List.getElem?_append_left hk]

theorem hung_edges : (hung kids q c).map Kid.edge = kids.map Kid.edge ++ [none] := by
  rw [hung, relink_field Kid.set_child_edge, List.map_append]
  rfl

theorem hung_tree (h : TreeAt kids none (Path.plug q .nil)) (hn : (Path.plug q .nil).keys.Nodup) :
    TreeAt (hung kids q c) none (Path.plug q (.node .red kids.length c .nil .nil)) := by
  obtain ⟨-, hP⟩ := tree_at_plug.mp h
  obtain ⟨-, hnP, -⟩ := Path.nodup_keys_plug.mp hn
  have hlt : ∀ k ∈ Path.keys q, k < kids.length :=
    fun k hk => h.lt k (Path.mem_keys_plug.mpr (Or.inr hk))
  have hnew : Path.above q ≠ some kids.length :=
    fun he => Nat.lt_irrefl _ (hlt _ (Path.above_mem he))
  have hkid : (hung kids q c)[kids.length]? = some (kidNew (Path.above q) c) := by
    rw [hung, relink_other hnew, List.getElem?_append_right (Nat.le_refl _), Nat.sub_self]
    rfl
  rw [tree_at_plug]
  refine ⟨⟨⟨_, hkid, rfl, rfl, rfl, rfl, rfl⟩, trivial, trivial⟩, hP.relink hnP ?_ ?_⟩
  · rintro f r rfl
    have hf := hlt f.key (Path.above_mem rfl)
    rw [hung, relink, List.getElem?_modify_eq, List.getElem?_append_left hf]
    rfl
  · intro k hk hq
    exact hung_old (hlt k hk) hq

variable {s : BstSet} {np : Nat}

theorem write_slot (hnode : s.nodes[np]? = some ⟨(Path.plug q .nil).top⟩)
    (h : TreeAt s.kids none (Path.plug q .nil)) :
    BstSet.writeKid { s with kids := s.kids ++ [kidNew (Path.above q) c] } (slotAt np q)
        (some s.kids.length) =
      .ok { s with
        nodes := s.nodes.set np ⟨(Path.plug q (.node .red s.kids.length c .nil .nil)).top⟩
        kids := hung s.kids q c } := by
  have hlt := (List.getElem?_eq_some_iff.mp hnode).1
  cases q with
  | nil =>
    simp [slotAt, BstSet.writeKid, load_some hnode, store, hlt, hung, relink, Path.plug,
      KeyTree.top]
  | cons f q =>
    obtain ⟨-, hK, -⟩ := tree_at_plug.mp h
    have hf : f.key < (s.kids ++ [kidNew (Path.above (f :: q)) c]).length := by
      rw [List.length_append]
      exact Nat.lt_add_right 1 hK.lt
    have hsame : s.nodes.set np
        ⟨(Path.plug (f :: q) (.node .red s.kids.length c .nil .nil)).top⟩ = s.nodes := by
      rw [Path.top_plug_cons f q _ .nil]
      obtain ⟨_, hget⟩ := List.getElem?_eq_some_iff.mp hnode
      rw [← hget, List.set_getElem_self]
    rw [slotAt, BstSet.writeKid, hsame, assign_lt hf]
    rfl

/-- A chunk that is there: nothing changes. -/
theorem kid_get_or_set_found {k : Nat} (hnode : s.nodes[np]? = some ⟨t.top⟩)
    (h : TreeAt s.kids none t) (hfuel : t.keys.length < fuel) (hf : t.find c = some k) :
    kidGetOrSet fuel s np c = .ok (s, k) := by
  have hloop := kid_slot_loop_spec (p := []) (c := c) hfuel hnode h
  rw [slotAt, Path.above, hf] at hloop
  rw [kidGetOrSet, hloop]
  rfl

/-- A missing chunk, where no inner child comes up: a new kid, and the tree
of the node with it inserted. -/
theorem kid_get_or_set_new {n : Nat} (hnode : s.nodes[np]? = some ⟨t.top⟩)
    (h : TreeAt s.kids none t) (hn : t.keys.Nodup) (hs : t.Sorted) (hrb : KeyTree.RB .black n t)
    (hf : t.find c = none) (ho : Path.Outer (t.path c [])) (hfuel : t.keys.length + 2 ≤ fuel) :
    ∃ kids', kidGetOrSet fuel s np c = .ok ({ s with
          nodes := s.nodes.set np ⟨(t.insert s.kids.length c).top⟩, kids := kids' },
        s.kids.length) ∧
      TreeAt kids' none (t.insert s.kids.length c) ∧ (t.insert s.kids.length c).keys.Nodup ∧
      kids'.map Kid.edge = s.kids.map Kid.edge ++ [none] ∧
      ∀ k, k < s.kids.length → k ∉ t.keys → kids'[k]? = s.kids[k]? := by
  obtain ⟨hplug, -, -⟩ := KeyTree.path_spec hf [] hs (by simp [Path.before]) (by simp [Path.after])
  rw [Path.plug] at hplug
  have hloop := kid_slot_loop_spec (p := []) (c := c) (Nat.lt_of_lt_of_le (by omega) hfuel) hnode h
  have hlen := KeyTree.path_length t c []
  have hhole := KeyTree.path_hole hf hrb .top
  rw [slotAt, Path.above, hf] at hloop
  rw [KeyTree.insert]
  generalize t.path c [] = q at hplug hloop hlen hhole ho ⊢
  rw [← hplug] at hnode h hn
  have hlt := (List.getElem?_eq_some_iff.mp hnode).1
  have hold : ∀ k ∈ Path.keys q, k < s.kids.length :=
    fun k hk => h.lt k (Path.mem_keys_plug.mpr (Or.inr hk))
  have h1 := hung_tree (c := c) h hn
  have hn1 : (Path.plug q (.node .red s.kids.length c .nil .nil)).keys.Nodup := by
    obtain ⟨-, hnq, -⟩ := Path.nodup_keys_plug.mp hn
    refine Path.nodup_keys_plug.mpr ⟨List.nodup_singleton _, hnq, ?_⟩
    intro k hk hkq
    rw [List.mem_singleton.mp hk] at hkq
    exact Nat.lt_irrefl _ (hold _ hkq)
  have hfix : q.length + 2 ≤ fuel := by
    rw [List.length_nil, Nat.add_zero] at hlen
    omega
  obtain ⟨kids', hrun, hheld, hkeys, hedges, hothers⟩ := kid_fix_spec h1 hn1 rfl hhole ho hfix
  refine ⟨kids', ?_, hheld, hkeys ▸ hn1, hedges.trans hung_edges, ?_⟩
  · rw [kidGetOrSet, hloop, ok_bind]
    simp only [write_slot hnode h, ok_bind]
    simp [BstSet.readKid, load, hlt, hrun, BstSet.writeKid, store, List.set_set]
  · intro k hk hkt
    rw [← hplug, Path.mem_keys_plug, not_or] at hkt
    rw [hothers k, hung_old hk (fun he => hkt.2 (Path.above_mem he))]
    rw [Path.mem_keys_plug, not_or]
    refine ⟨?_, hkt.2⟩
    intro hm
    rw [List.mem_singleton.mp hm] at hk
    exact Nat.lt_irrefl _ hk

end

end Mepl
