import Mepl.Ptrset.Rotate

namespace Mepl
open Base

/-- The kids of t, each at one place, hang together as t does, below root. -/
structure KidTree (kids : List Kid) (root : Ptr) (t : KeyTree Nat PtrT) : Prop where
  held : TreeAt kids none t
  distinct : t.keys.Nodup
  top : t.top = root

/-- What a rotation does not assign to. -/
def Kid.own (kid : Kid) : PtrT × Ptr × Color := (kid.v, kid.edge, kid.color)

/-- root is that of a tree with the kids of t in their order, and no kid has
changed but for its place in the tree. -/
structure Turned (t : KeyTree Nat PtrT) (kids kids' : List Kid) (root : Ptr) : Prop where
  tree : ∃ t', KidTree kids' root t' ∧ t'.keys = t.keys
  orphan : ∃ kid, deref kids' root = .ok kid ∧ kid.parent = none
  own : kids'.map Kid.own = kids.map Kid.own
  others : ∀ k, k ∉ t.keys → kids'[k]? = kids[k]?

/-- y has come to the place of the kid x, which is below it now on the side d. -/
structure TakesPlace (d : Dir) (x y : Nat) (kid : Kid) (kids kids' : List Kid)
    (root root' : Ptr) : Prop where
  /-- y is the child of what was above x, and x is the child of y -/
  upper : ∃ ky, kids'[y]? = some ky ∧ ky.parent = kid.parent ∧ ky.child d = some x
  /-- x has got the child of y that was between them, and keeps its other one -/
  lower : ∃ ky kx, kids[y]? = some ky ∧ kids'[x]? = some kx ∧ kx.parent = some y ∧
    kx.child d.other = ky.child d ∧ kx.child d = kid.child d
  /-- where x was the root, y is it -/
  top : kid.parent = none → root = some x ∧ root' = some y
  /-- where x was a child, y is it, on the same side -/
  above : ∀ p, kid.parent = some p → root' = root ∧ ∃ kp kp' e, kids[p]? = some kp ∧
    kids'[p]? = some kp' ∧ kp.child e = some x ∧ kp'.child e = some y ∧
    kp'.child e.other = kp.child e.other

section
variable {kids kids' : List Kid} {root : Ptr} {t : KeyTree Nat PtrT} {x y : Nat} {kid : Kid}
  {parent a b : Ptr} {v : PtrT} {c : Color} {k : Nat} {d : Dir}

/-- A kid's fields are those of the tree, and its edge. -/
theorem KidAt.unique (h : KidAt kids d k parent a b v c) (h' : KidAt kids' d k parent a b v c)
    (hedges : kids'.map Kid.edge = kids.map Kid.edge) : kids'[k]? = kids[k]? := by
  obtain ⟨kid, hkid, hp, ha, hb, hv, hc⟩ := h
  obtain ⟨kid', hkid', hp', ha', hb', hv', hc'⟩ := h'
  have hedge := congrArg (·[k]?) hedges
  simp only [List.getElem?_map, hkid, hkid', Option.map_some, Option.some.injEq] at hedge
  rw [hkid, hkid']
  cases kid
  cases kid'
  cases d <;> simp_all [Kid.child, Dir.other]

theorem TreeAt.unique (h : TreeAt kids parent t) (h' : TreeAt kids' parent t)
    (hedges : kids'.map Kid.edge = kids.map Kid.edge) : ∀ k ∈ t.keys, kids'[k]? = kids[k]? := by
  induction t generalizing parent with
  | nil => simp
  | node c k v l r ihl ihr =>
    intro j hj
    rcases mem_keys_node.mp hj with rfl | hl | hr
    · exact h.1.unique h'.1 hedges
    · exact ihl h.2.1 h'.2.1 j hl
    · exact ihr h.2.2 h'.2.2 j hr

/-- Back to the same tree is back to the same kids. -/
theorem Rearranged.same (h : TreeAt kids none t) (h' : Rearranged t t kids kids') :
    kids' = kids := by
  apply List.ext_getElem?
  intro k
  by_cases hk : k ∈ t.keys
  · exact h.unique h'.held h'.keeps.edges k hk
  · exact h'.keeps.others k hk

theorem TreeAt.orphan (h : TreeAt kids none t) (hx : x ∈ t.keys) :
    ∃ kid, deref kids t.top = .ok kid ∧ kid.parent = none := by
  cases t with
  | nil => cases hx
  | node c k v l r =>
    obtain ⟨⟨kid, hkid, hp, -⟩, -⟩ := h
    exact ⟨kid, deref_some hkid, hp⟩

/-- Read off the trees before and after. -/
theorem takes_place {p : Path Nat PtrT} {cx cy : Color} {vx vy : PtrT} {a b c : KeyTree Nat PtrT}
    (h : TreeAt kids none (Path.plug p (.on d cx x vx a (.on d cy y vy b c))))
    (h' : TreeAt kids' none (Path.plug p (.on d cy y vy (.on d cx x vx a b) c)))
    (hkid : kids[x]? = some kid) :
    TakesPlace d x y kid kids kids' (Path.plug p (.on d cx x vx a (.on d cy y vy b c))).top
      (Path.plug p (.on d cy y vy (.on d cx x vx a b) c)).top := by
  obtain ⟨hT, hP⟩ := tree_at_plug.mp h
  obtain ⟨hT', hP'⟩ := tree_at_plug.mp h'
  obtain ⟨⟨kx, hkx, hxp, hxa, -⟩, -, hY⟩ := tree_at_on.mp hT
  obtain ⟨⟨ky, hky, -, hyb, -⟩, -⟩ := tree_at_on.mp hY
  obtain ⟨⟨ky', hky', hyp', hyx', -⟩, hX', -⟩ := tree_at_on.mp hT'
  obtain ⟨⟨kx', hkx', hxp', hxa', hxb', -⟩, -⟩ := tree_at_on.mp hX'
  rw [KeyTree.top_on] at hP hP' hyx'
  rw [hkid] at hkx
  cases hkx
  constructor
  case upper => exact ⟨ky', hky', hyp'.trans hxp.symm, hyx'⟩
  case lower =>
    exact ⟨ky, kx', hky, hkx', hxp', hxb'.trans hyb.symm, hxa'.trans hxa.symm⟩
  case top =>
    intro hnone
    cases p with
    | nil => exact ⟨KeyTree.top_on .., KeyTree.top_on ..⟩
    | cons f p => cases hxp.symm.trans hnone
  case above =>
    intro q hq
    cases p with
    | nil => cases hxp.symm.trans hq
    | cons f p =>
      cases hxp.symm.trans hq
      obtain ⟨⟨kp, hkp, -, hpx, hps, -⟩, -⟩ := hP
      obtain ⟨⟨kp', hkp', -, hpy, hps', -⟩, -⟩ := hP'
      exact ⟨Path.top_plug_cons f p _ _, kp, kp', f.dir, hkp, hkp', hpx, hpy,
        hps'.trans hps.symm⟩

theorem kid_rotate_turns (d : Dir) (h : KidTree kids root t) (hx : x ∈ t.keys)
    (hkid : kids[x]? = some kid) (hy : kid.child d.other = some y) :
    ∃ kids' root', kidRotate d kids root (some x) = .ok (kids', root') ∧
      Turned t kids kids' root' ∧ TakesPlace d x y kid kids kids' root root' ∧
      kidRotate d.other kids' root' (some y) = .ok (kids, root) := by
  obtain ⟨held, distinct, rfl⟩ := h
  obtain ⟨p, cx, vx, a, u, rfl⟩ := Path.exists_plug d hx
  obtain ⟨hX, -, -⟩ := tree_at_on.mp (tree_at_plug.mp held).1
  obtain ⟨kx, hkx, -, -, hu, -⟩ := hX
  rw [hkid] at hkx
  cases hkx
  obtain ⟨cy, vy, b, c, rfl⟩ := KeyTree.on_of_top d (hu.symm.trans hy)
  obtain ⟨hrun, hturn⟩ := kid_rotate_rotated held distinct
  have distinct' := hturn.keys ▸ distinct
  -- seen from the other side, x is now the child of y that the rotation back takes up
  have hflip : KeyTree.on d cy y vy (.on d cx x vx a b) c =
      .on d.other cy y vy c (.on d.other cx x vx b a) := by
    rw [KeyTree.on_other, KeyTree.on_other]
  have hflip' : KeyTree.on d.other cx x vx (.on d.other cy y vy c b) a =
      .on d cx x vx a (.on d cy y vy b c) := by
    rw [KeyTree.on_other, KeyTree.on_other]
  have horphan := hturn.held.orphan (hturn.keys ▸ hx)
  refine ⟨_, _, hrun, ⟨⟨_, ⟨hturn.held, distinct', rfl⟩, hturn.keys⟩, horphan, ?_,
    hturn.keeps.others⟩, takes_place held hturn.held hkid, ?_⟩
  · apply rotated_field
    · exact fun kid d q => by simp [Kid.own]
    · exact fun kid q => by simp [Kid.own]
  · rw [hflip] at hturn distinct' ⊢
    obtain ⟨hback, hturn'⟩ := kid_rotate_rotated hturn.held distinct'
    rw [hflip'] at hback hturn'
    rw [hback, (hturn.trans hturn').same held]

end

/-- kid_rotate_left and kid_rotate_right at any kid of any tree: the child comes
to the place of the kid, and the other rotation there takes all of it back. -/
theorem kid_rotations {kids : List Kid} {root : Ptr} {t : KeyTree Nat PtrT} {x : Nat} {kid : Kid}
    (h : KidTree kids root t) (hx : x ∈ t.keys) (hkid : kids[x]? = some kid) :
    (∀ y, kid.right = some y → ∃ kids' root',
      kidRotateLeft kids root (some x) = .ok (kids', root') ∧ Turned t kids kids' root' ∧
      TakesPlace .left x y kid kids kids' root root' ∧
      kidRotateRight kids' root' (some y) = .ok (kids, root)) ∧
    (∀ y, kid.left = some y → ∃ kids' root',
      kidRotateRight kids root (some x) = .ok (kids', root') ∧ Turned t kids kids' root' ∧
      TakesPlace .right x y kid kids kids' root root' ∧
      kidRotateLeft kids' root' (some y) = .ok (kids, root)) := by
  constructor
  · intro y hy
    exact kid_rotate_turns .left h hx hkid hy
  · intro y hy
    exact kid_rotate_turns .right h hx hkid hy

/-- Six kids, with 1 below the root and 3 between 1 and 2. -/
def sixKids : List Kid :=
  [⟨some 8, none, some 1, none, 9, .black⟩, ⟨some 9, some 0, some 4, some 2, 3, .red⟩,
    ⟨none, some 1, some 3, some 5, 6, .black⟩, ⟨none, some 2, none, none, 5, .red⟩,
    ⟨none, some 1, none, none, 1, .black⟩, ⟨none, some 2, none, none, 7, .red⟩]

def sixTree : KeyTree Nat PtrT :=
  .node .black 0 9 (.node .red 1 3 (.node .black 4 1 .nil .nil)
    (.node .black 2 6 (.node .red 3 5 .nil .nil) (.node .red 5 7 .nil .nil))) .nil

theorem six_kids_tree : KidTree sixKids (some 0) sixTree := by
  refine ⟨⟨?_, ⟨?_, ⟨?_, trivial, trivial⟩, ?_, ⟨?_, trivial, trivial⟩, ?_, trivial, trivial⟩,
    trivial⟩, by decide, rfl⟩
  all_goals exact ⟨_, rfl, rfl, rfl, rfl, rfl, rfl⟩

/-- Left at a kid inside the tree, and back. -/
theorem kid_rotations_pair : ∃ kid kids' root', sixKids[1]? = some kid ∧
    kidRotateLeft sixKids (some 0) (some 1) = .ok (kids', root') ∧
    Turned sixTree sixKids kids' root' ∧ TakesPlace .left 1 2 kid sixKids kids' (some 0) root' ∧
    kidRotateRight kids' root' (some 2) = .ok (sixKids, some 0) := by
  have hkid : sixKids[1]? = some ⟨some 9, some 0, some 4, some 2, 3, .red⟩ := rfl
  obtain ⟨kids', root', hrotated⟩ := (kid_rotations six_kids_tree (by decide) hkid).1 2 rfl
  exact ⟨_, kids', root', hkid, hrotated⟩

end Mepl
