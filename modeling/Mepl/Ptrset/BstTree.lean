import Mepl.Base.Chain
import Mepl.Ptrset.Bst

namespace Mepl
open Base

/-- The kid at k but for its edge, its children named from the side d. -/
def KidAt (kids : List Kid) (d : Dir) (k : Nat) (parent a b : Ptr) (v : PtrT) (c : Color) : Prop :=
  ∃ kid, kids[k]? = some kid ∧ kid.parent = parent ∧ kid.child d = a ∧ kid.child d.other = b ∧
    kid.v = v ∧ kid.color = c

/-- The kids hold the tree, its root a child of parent: every parent pointer
matches the child pointer it goes back along. -/
def TreeAt (kids : List Kid) : Ptr → KeyTree Nat PtrT → Prop
  | _, .nil => True
  | parent, .node c k v l r =>
    KidAt kids .left k parent l.top r.top v c ∧ TreeAt kids (some k) l ∧ TreeAt kids (some k) r

/-- The kids hold what is beside and above a place that kp hangs at. -/
def PathAt (kids : List Kid) : Ptr → Path Nat PtrT → Prop
  | _, [] => True
  | kp, f :: p =>
    KidAt kids f.dir f.key (Path.above p) kp f.sibling.top f.val f.color ∧
      TreeAt kids (some f.key) f.sibling ∧ PathAt kids (some f.key) p

section
variable {kids kids' : List Kid} {d : Dir} {k : Nat} {parent kp a b : Ptr} {v : PtrT} {c : Color}
  {t : KeyTree Nat PtrT} {p : Path Nat PtrT}

theorem kid_at_other : KidAt kids d.other k parent b a v c ↔ KidAt kids d k parent a b v c := by
  unfold KidAt
  simp only [Dir.other_other]
  constructor
  · intro h
    obtain ⟨kid, hk, hp, hb, ha, h⟩ := h
    exact ⟨kid, hk, hp, ha, hb, h⟩
  · intro h
    obtain ⟨kid, hk, hp, ha, hb, h⟩ := h
    exact ⟨kid, hk, hp, hb, ha, h⟩

theorem tree_at_on {x y : KeyTree Nat PtrT} : TreeAt kids parent (.on d c k v x y) ↔
    KidAt kids d k parent x.top y.top v c ∧ TreeAt kids (some k) x ∧ TreeAt kids (some k) y := by
  cases d with
  | left => exact Iff.rfl
  | right =>
    rw [KeyTree.on, TreeAt, ← kid_at_other]
    exact and_congr_right (fun _ => and_comm)

/-- A tree is held when the part below a place and the part above it are. -/
theorem tree_at_plug : TreeAt kids none (Path.plug p t) ↔
    TreeAt kids (Path.above p) t ∧ PathAt kids t.top p := by
  induction p generalizing t with
  | nil => exact (and_iff_left trivial).symm
  | cons f p ih =>
    rw [Path.plug, ih, tree_at_on, KeyTree.top_on, PathAt, Path.above]
    constructor
    · intro h
      obtain ⟨⟨hk, ht, hs⟩, hp⟩ := h
      exact ⟨ht, hk, hs, hp⟩
    · intro h
      obtain ⟨ht, hk, hs, hp⟩ := h
      exact ⟨⟨hk, ht, hs⟩, hp⟩

theorem mem_keys_node {j : Nat} {l r : KeyTree Nat PtrT} :
    j ∈ (KeyTree.node c k v l r).keys ↔ j = k ∨ j ∈ l.keys ∨ j ∈ r.keys :=
  KeyTree.mem_keys_on (d := .left)

theorem KidAt.congr (h : KidAt kids d k parent a b v c) (hk : kids'[k]? = kids[k]?) :
    KidAt kids' d k parent a b v c := by
  obtain ⟨kid, hkid, h⟩ := h
  exact ⟨kid, hk.trans hkid, h⟩

/-- A tree depends on its own kids only. -/
theorem TreeAt.congr (h : TreeAt kids parent t) (hk : ∀ k ∈ t.keys, kids'[k]? = kids[k]?) :
    TreeAt kids' parent t := by
  induction t generalizing parent with
  | nil => trivial
  | node c k v l r ihl ihr =>
    obtain ⟨hkid, hl, hr⟩ := h
    refine ⟨hkid.congr (hk k (mem_keys_node.mpr (Or.inl rfl))), ihl hl ?_, ihr hr ?_⟩
    · intro j hj
      exact hk j (mem_keys_node.mpr (Or.inr (Or.inl hj)))
    · intro j hj
      exact hk j (mem_keys_node.mpr (Or.inr (Or.inr hj)))

theorem PathAt.congr (h : PathAt kids kp p) (hk : ∀ k ∈ Path.keys p, kids'[k]? = kids[k]?) :
    PathAt kids' kp p := by
  induction p generalizing kp with
  | nil => trivial
  | cons f p ih =>
    obtain ⟨hkid, hs, hp⟩ := h
    refine ⟨hkid.congr (hk f.key (Path.mem_keys_cons.mpr (Or.inl rfl))), hs.congr ?_, ih hp ?_⟩
    · intro j hj
      exact hk j (Path.mem_keys_cons.mpr (Or.inr (Or.inl hj)))
    · intro j hj
      exact hk j (Path.mem_keys_cons.mpr (Or.inr (Or.inr hj)))

theorem KidAt.set_edge (h : KidAt kids d k parent a b v c) (j : Nat) (np : Ptr) :
    KidAt (kids.modify j (fun kid => kid.setEdge np)) d k parent a b v c := by
  by_cases hj : j = k
  · obtain ⟨kid, hkid, h⟩ := h
    refine ⟨kid.setEdge np, ?_, by simpa using h⟩
    rw [hj, List.getElem?_modify_eq, hkid]
    rfl
  · exact h.congr (List.getElem?_modify_ne _ kids hj)

/-- No tree depends on the edges of its kids. -/
theorem TreeAt.set_edge (h : TreeAt kids parent t) (j : Nat) (np : Ptr) :
    TreeAt (kids.modify j (fun kid => kid.setEdge np)) parent t := by
  induction t generalizing parent with
  | nil => trivial
  | node c k v l r ihl ihr => exact ⟨h.1.set_edge j np, ihl h.2.1, ihr h.2.2⟩

/-- A tree under another parent: its root's kid alone has to change. -/
theorem TreeAt.reparent {q : Ptr} (h : TreeAt kids parent t) (hn : t.keys.Nodup)
    (htop : ∀ k, t.top = some k → kids'[k]? = kids[k]?.map (fun kid => kid.setParent q))
    (hk : ∀ k ∈ t.keys, t.top ≠ some k → kids'[k]? = kids[k]?) : TreeAt kids' q t := by
  cases t with
  | nil => trivial
  | node c k v l r =>
    obtain ⟨⟨kid, hkid, -, hl, hr, hv, hc⟩, htl, htr⟩ := h
    obtain ⟨hkl, hkr, -⟩ := (KeyTree.nodup_keys_on (d := .left)).mp hn
    refine ⟨⟨kid.setParent q, ?_, rfl, ?_, ?_, hv, hc⟩, htl.congr ?_, htr.congr ?_⟩
    · rw [htop k rfl, hkid]
      rfl
    · rw [Kid.set_parent_child, hl]
    · rw [Kid.set_parent_child, hr]
    · intro j hj
      apply hk j (mem_keys_node.mpr (Or.inr (Or.inl hj)))
      intro he
      cases he
      exact hkl hj
    · intro j hj
      apply hk j (mem_keys_node.mpr (Or.inr (Or.inr hj)))
      intro he
      cases he
      exact hkr hj

/-- A place with another tree at it: the kid above alone has to change. -/
theorem PathAt.relink {q : Ptr} (h : PathAt kids kp p) (hn : (Path.keys p).Nodup)
    (htop : ∀ f r, p = f :: r →
      kids'[f.key]? = kids[f.key]?.map (fun kid => kid.setChild f.dir q))
    (hk : ∀ k ∈ Path.keys p, Path.above p ≠ some k → kids'[k]? = kids[k]?) :
    PathAt kids' q p := by
  cases p with
  | nil => trivial
  | cons f p =>
    obtain ⟨⟨kid, hkid, hp, -, hs, hv, hc⟩, hts, htp⟩ := h
    obtain ⟨hfs, hfp, -⟩ := Path.nodup_keys_cons.mp hn
    refine ⟨⟨kid.setChild f.dir q, ?_, ?_, ?_, ?_, ?_, ?_⟩, hts.congr ?_, htp.congr ?_⟩
    · rw [htop f p rfl, hkid]
      rfl
    · rw [Kid.set_child_parent, hp]
    · rw [Kid.set_child_child]
    · rw [Kid.set_child_child_other, hs]
    · rw [Kid.set_child_v, hv]
    · rw [Kid.set_child_color, hc]
    · intro j hj
      apply hk j (Path.mem_keys_cons.mpr (Or.inr (Or.inl hj)))
      intro he
      cases he
      exact hfs hj
    · intro j hj
      apply hk j (Path.mem_keys_cons.mpr (Or.inr (Or.inr hj)))
      intro he
      cases he
      exact hfp hj

theorem KidAt.lt (h : KidAt kids d k parent a b v c) : k < kids.length := by
  obtain ⟨kid, hkid, _⟩ := h
  exact (List.getElem?_eq_some_iff.mp hkid).1

theorem TreeAt.lt (h : TreeAt kids parent t) : ∀ k ∈ t.keys, k < kids.length := by
  induction t generalizing parent with
  | nil =>
    intro k hk
    cases hk
  | node c k v l r ihl ihr =>
    obtain ⟨hkid, hl, hr⟩ := h
    intro j hj
    rcases mem_keys_node.mp hj with rfl | hj | hj
    · exact hkid.lt
    · exact ihl hl j hj
    · exact ihr hr j hj

/-- A tree cannot have more kids than there are. -/
theorem TreeAt.length_le (h : TreeAt kids parent t) (hn : t.keys.Nodup) :
    t.keys.length ≤ kids.length :=
  length_le_of_lt hn h.lt

end

section
variable {kids : List Kid} {k j : Nat} {kid : Kid} {f : Kid → Kid}

theorem deref_some (h : kids[k]? = some kid) : deref kids (some k) = .ok kid := by
  rw [deref, load_some h]

theorem deref_modify_eq (f : Kid → Kid) :
    deref (kids.modify k f) (some k) = (deref kids (some k)).map f := by
  simp only [deref, load, List.getElem?_modify_eq]
  cases kids[k]? <;> rfl

theorem deref_modify_ne (f : Kid → Kid) (h : k ≠ j) :
    deref (kids.modify k f) (some j) = deref kids (some j) := by
  simp only [deref, load, List.getElem?_modify_ne f kids h]

theorem assign_lt (h : k < kids.length) (f : Kid → Kid) :
    assign kids (some k) f = .ok (kids.modify k f) := by
  have hset : kids.set k (f kids[k]) = kids.modify k f := by
    apply List.ext_getElem?
    intro j
    rw [List.getElem?_set, List.getElem?_modify]
    by_cases hj : k = j
    · subst hj
      simp [h]
    · simp [hj]
  simp [assign, load_lt h, store, h, hset]

/-- Outside the given kids nothing has changed, and no edge at all. -/
structure Keeps (ks : List Nat) (kids kids' : List Kid) : Prop where
  edges : kids'.map Kid.edge = kids.map Kid.edge
  others : ∀ k, k ∉ ks → kids'[k]? = kids[k]?

theorem Keeps.trans {ks : List Nat} {kids kids' kids'' : List Kid} (h : Keeps ks kids kids')
    (h' : Keeps ks kids' kids'') : Keeps ks kids kids'' where
  edges := h'.edges.trans h.edges
  others := fun k hk => (h'.others k hk).trans (h.others k hk)

theorem Keeps.length {ks : List Nat} {kids kids' : List Kid} (h : Keeps ks kids kids') :
    kids'.length = kids.length := by
  have hl := congrArg List.length h.edges
  rwa [List.length_map, List.length_map] at hl

/-- The kids of one tree rearranged into another. -/
structure Rearranged (t t' : KeyTree Nat PtrT) (kids kids' : List Kid) : Prop where
  held : TreeAt kids' none t'
  keys : t'.keys = t.keys
  keeps : Keeps t.keys kids kids'

theorem Rearranged.trans {t t' t'' : KeyTree Nat PtrT} {kids kids' kids'' : List Kid}
    (h : Rearranged t t' kids kids') (h' : Rearranged t' t'' kids' kids'') :
    Rearranged t t'' kids kids'' where
  held := h'.held
  keys := h'.keys.trans h.keys
  keeps := h.keeps.trans (h.keys ▸ h'.keeps)

/-- A field that is not assigned to stays in every kid. -/
theorem map_field_modify {α : Type} {g : Kid → α} (kids : List Kid) (k : Nat)
    (hf : ∀ kid, g (f kid) = g kid) : (kids.modify k f).map g = kids.map g := by
  apply List.ext_getElem?
  intro j
  rw [List.getElem?_map, List.getElem?_map, List.getElem?_modify]
  cases kids[j]? with
  | none => rfl
  | some kid => by_cases hj : k = j <;> simp [hj, hf]

end

end Mepl
