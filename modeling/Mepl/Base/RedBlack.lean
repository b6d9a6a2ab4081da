import Mathlib.Algebra.Order.Ring.Nat
import Mathlib.Order.Lattice
import Mathlib.Data.List.Nodup
import Mepl.Base.Chain

namespace Mepl.Base

inductive Dir where
  | left
  | right
deriving DecidableEq, Repr

def Dir.other : Dir → Dir
  | .left => .right
  | .right => .left

@[simp] theorem Dir.other_other (d : Dir) : d.other.other = d := by
  cases d <;> rfl

inductive Color where
  | red
  | black
deriving DecidableEq, Repr

/-- A tree of keys k with values v. -/
inductive KeyTree (K V : Type) where
  | nil
  | node (c : Color) (k : K) (v : V) (l r : KeyTree K V)
deriving Repr

section
variable {K V : Type}

namespace KeyTree

/-- A node by its child on the side d and the one on the other side. -/
def on (d : Dir) (c : Color) (k : K) (v : V) (a b : KeyTree K V) : KeyTree K V :=
  match d with
  | .left => node c k v a b
  | .right => node c k v b a

theorem on_other (d : Dir) (c : Color) (k : K) (v : V) (a b : KeyTree K V) :
    on d.other c k v a b = on d c k v b a := by
  cases d <;> rfl

theorem exists_on (d : Dir) (c : Color) (k : K) (v : V) (l r : KeyTree K V) :
    ∃ a b, node c k v l r = on d c k v a b := by
  cases d with
  | left => exact ⟨l, r, rfl⟩
  | right => exact ⟨r, l, rfl⟩

def inorder : KeyTree K V → List (K × V)
  | nil => []
  | node _ k v l r => inorder l ++ (k, v) :: inorder r

def isRed : KeyTree K V → Bool
  | node .red _ _ _ _ => true
  | _ => false

/-- The root made black. -/
def blacken : KeyTree K V → KeyTree K V
  | nil => nil
  | node _ k v l r => node .black k v l r

@[simp] theorem inorder_blacken (t : KeyTree K V) : t.blacken.inorder = t.inorder := by
  cases t <;> rfl

/-- The key at the root. -/
def top : KeyTree K V → Option K
  | nil => none
  | node _ k _ _ _ => some k

@[simp] theorem top_on (d : Dir) (c : Color) (k : K) (v : V) (a b : KeyTree K V) :
    (on d c k v a b).top = some k := by
  cases d <;> rfl

theorem on_of_top {t : KeyTree K V} {k : K} (d : Dir) (h : t.top = some k) :
    ∃ c v a b, t = on d c k v a b := by
  cases t with
  | nil => cases h
  | node c k' v l r =>
    cases h
    obtain ⟨a, b, hab⟩ := exists_on d c k v l r
    exact ⟨c, v, a, b, hab⟩

def keys (t : KeyTree K V) : List K := t.inorder.map Prod.fst

@[simp] theorem keys_nil : (nil : KeyTree K V).keys = [] := rfl

theorem top_mem {t : KeyTree K V} {k : K} (h : t.top = some k) : k ∈ t.keys := by
  cases t with
  | nil => cases h
  | node c k' v l r =>
    cases h
    simp [keys, inorder]

theorem mem_keys_on {d : Dir} {c : Color} {k j : K} {v : V} {a b : KeyTree K V} :
    j ∈ (on d c k v a b).keys ↔ j = k ∨ j ∈ a.keys ∨ j ∈ b.keys := by
  cases d with
  | left =>
    simp only [keys, on, inorder, List.map_append, List.map_cons, List.mem_append, List.mem_cons]
    exact or_left_comm
  | right =>
    simp only [keys, on, inorder, List.map_append, List.map_cons, List.mem_append, List.mem_cons]
    rw [or_left_comm, or_comm (b := j ∈ a.inorder.map Prod.fst)]

theorem nodup_keys_on {d : Dir} {c : Color} {k : K} {v : V} {a b : KeyTree K V} :
    (on d c k v a b).keys.Nodup ↔ k ∉ a.keys ∧ k ∉ b.keys ∧ a.keys.Nodup ∧ b.keys.Nodup ∧
      a.keys.Disjoint b.keys := by
  have hnode : ∀ l r : KeyTree K V, (node c k v l r).keys.Nodup ↔ k ∉ l.keys ∧ k ∉ r.keys ∧
      l.keys.Nodup ∧ r.keys.Nodup ∧ l.keys.Disjoint r.keys := by
    intro l r
    simp only [keys, inorder, List.map_append, List.map_cons, List.nodup_append', List.nodup_cons,
      List.disjoint_cons_right]
    constructor
    · intro h
      obtain ⟨hl, ⟨hkr, hr⟩, hkl, hlr⟩ := h
      exact ⟨hkl, hkr, hl, hr, hlr⟩
    · intro h
      obtain ⟨hkl, hkr, hl, hr, hlr⟩ := h
      exact ⟨hl, ⟨hkr, hr⟩, hkl, hlr⟩
  cases d with
  | left => exact hnode a b
  | right =>
    rw [on, hnode]
    constructor
    · intro h
      obtain ⟨hb, ha, hnb, hna, hd⟩ := h
      exact ⟨ha, hb, hna, hnb, List.disjoint_symm hd⟩
    · intro h
      obtain ⟨ha, hb, hna, hnb, hd⟩ := h
      exact ⟨hb, ha, hnb, hna, List.disjoint_symm hd⟩

/-- Red-black trees with a root of color c and n black nodes on every path:
no red node has a red child. -/
inductive RB : Color → Nat → KeyTree K V → Prop
  | nil : RB .black 0 nil
  | red {n : Nat} {k : K} {v : V} {l r : KeyTree K V} (left : RB .black n l)
      (right : RB .black n r) : RB .red n (node .red k v l r)
  | black {n : Nat} {c d : Color} {k : K} {v : V} {l r : KeyTree K V} (left : RB c n l)
      (right : RB d n r) : RB .black (n + 1) (node .black k v l r)

theorem RB.on_red {n : Nat} {a b : KeyTree K V} (d : Dir) (k : K) (v : V) (ha : RB .black n a)
    (hb : RB .black n b) : RB .red n (on d .red k v a b) := by
  cases d with
  | left => exact .red ha hb
  | right => exact .red hb ha

theorem RB.on_black {n : Nat} {c e : Color} {a b : KeyTree K V} (d : Dir) (k : K) (v : V)
    (ha : RB c n a) (hb : RB e n b) : RB .black (n + 1) (on d .black k v a b) := by
  cases d with
  | left => exact .black ha hb
  | right => exact .black hb ha

theorem RB.isRed {n : Nat} {c : Color} {t : KeyTree K V} (h : RB c n t) :
    t.isRed = true ↔ c = .red := by
  cases h <;> simp [KeyTree.isRed]

theorem RB.blacken {n : Nat} {c : Color} {t : KeyTree K V} (h : RB c n t) :
    ∃ m, RB .black m t.blacken := by
  cases h with
  | nil => exact ⟨0, .nil⟩
  | @red n k v l r left right => exact ⟨n + 1, .black left right⟩
  | @black n c d k v l r left right => exact ⟨n + 1, .black left right⟩

theorem RB.blacken_red {n : Nat} {t : KeyTree K V} (h : RB .red n t) :
    RB .black (n + 1) t.blacken := by
  cases h with
  | red left right => exact .black left right

end KeyTree

/-- A node on the way down: the side taken, and the child left behind. -/
structure Frame (K V : Type) where
  dir : Dir
  color : Color
  key : K
  val : V
  sibling : KeyTree K V

/-- The way down to a place in a tree, the last node first. -/
abbrev Path (K V : Type) := List (Frame K V)

namespace Path
open KeyTree

/-- The tree with t at the end of the path. -/
def plug : Path K V → KeyTree K V → KeyTree K V
  | [], t => t
  | f :: p, t => plug p (on f.dir f.color f.key f.val t f.sibling)

theorem plug_append (p q : Path K V) (t : KeyTree K V) :
    plug (p ++ q) t = plug q (plug p t) := by
  induction p generalizing t with
  | nil => rfl
  | cons f p ih => exact ih _

/-- What hangs below a node leaves the root as it is. -/
theorem top_plug_cons (f : Frame K V) (p : Path K V) (t u : KeyTree K V) :
    (plug (f :: p) t).top = (plug (f :: p) u).top := by
  induction p generalizing f t u with
  | nil => simp [plug]
  | cons g p ih => exact ih g _ _

theorem top_plug_congr {t u : KeyTree K V} (p : Path K V) (h : t.top = u.top) :
    (plug p t).top = (plug p u).top := by
  cases p with
  | nil => exact h
  | cons f p => exact top_plug_cons f p t u

def before : Path K V → List (K × V)
  | [] => []
  | f :: p => match f.dir with
    | .left => before p
    | .right => before p ++ f.sibling.inorder ++ [(f.key, f.val)]

def after : Path K V → List (K × V)
  | [] => []
  | f :: p => match f.dir with
    | .left => (f.key, f.val) :: f.sibling.inorder ++ after p
    | .right => after p

theorem inorder_plug (p : Path K V) (t : KeyTree K V) :
    (plug p t).inorder = before p ++ t.inorder ++ after p := by
  induction p generalizing t with
  | nil => simp [plug, before, after]
  | cons f p ih =>
    rw [plug, ih]
    cases hd : f.dir <;> simp [before, after, hd, on, inorder]

/-- The key of the node that the place is a child of. -/
def above : Path K V → Option K
  | [] => none
  | f :: _ => some f.key

def keys (p : Path K V) : List K := (before p ++ after p).map Prod.fst

@[simp] theorem keys_nil : keys ([] : Path K V) = [] := rfl

theorem keys_plug (p : Path K V) (t : KeyTree K V) :
    (plug p t).keys.Perm (t.keys ++ keys p) := by
  have hp : (before p ++ t.inorder ++ after p).Perm (t.inorder ++ (before p ++ after p)) := by
    rw [List.append_assoc]
    exact List.perm_append_comm_assoc _ _ _
  rw [KeyTree.keys, inorder_plug, KeyTree.keys, keys, ← List.map_append]
  exact hp.map Prod.fst

/-- The hole of a longer path filled with nothing. -/
theorem keys_cons (f : Frame K V) (p : Path K V) :
    (keys (f :: p)).Perm ((on f.dir f.color f.key f.val .nil f.sibling).keys ++ keys p) := by
  have h := keys_plug (f :: p) .nil
  rw [KeyTree.keys_nil, List.nil_append] at h
  exact h.symm.trans (keys_plug p _)

theorem mem_keys_plug {p : Path K V} {t : KeyTree K V} {j : K} :
    j ∈ (plug p t).keys ↔ j ∈ t.keys ∨ j ∈ keys p := by
  rw [(keys_plug p t).mem_iff, List.mem_append]

/-- Every node of a tree is at the end of a path. -/
theorem exists_plug (d : Dir) {t : KeyTree K V} {k : K} (h : k ∈ t.keys) :
    ∃ p c v a b, t = plug p (on d c k v a b) := by
  induction t with
  | nil => cases h
  | node c k' v l r ihl ihr =>
    rcases (mem_keys_on (d := .left)).mp h with rfl | hl | hr
    · obtain ⟨a, b, hab⟩ := exists_on d c k v l r
      exact ⟨[], c, v, a, b, hab⟩
    · obtain ⟨p, c', v', a, b, rfl⟩ := ihl hl
      exact ⟨p ++ [⟨.left, c, k', v, r⟩], c', v', a, b, by rw [plug_append]; rfl⟩
    · obtain ⟨p, c', v', a, b, rfl⟩ := ihr hr
      exact ⟨p ++ [⟨.right, c, k', v, l⟩], c', v', a, b, by rw [plug_append]; rfl⟩

theorem top_plug_mem {f : Frame K V} {p : Path K V} {t : KeyTree K V} {k : K}
    (h : (plug (f :: p) t).top = some k) : k ∈ keys (f :: p) := by
  rw [top_plug_cons f p t .nil] at h
  rcases mem_keys_plug.mp (KeyTree.top_mem h) with hk | hk
  · cases hk
  · exact hk

theorem nodup_keys_plug {p : Path K V} {t : KeyTree K V} :
    (plug p t).keys.Nodup ↔ t.keys.Nodup ∧ (keys p).Nodup ∧ t.keys.Disjoint (keys p) := by
  rw [(keys_plug p t).nodup_iff, List.nodup_append']

theorem mem_keys_cons {f : Frame K V} {p : Path K V} {j : K} :
    j ∈ keys (f :: p) ↔ j = f.key ∨ j ∈ f.sibling.keys ∨ j ∈ keys p := by
  rw [(keys_cons f p).mem_iff, List.mem_append, mem_keys_on]
  simp [or_assoc]

theorem nodup_keys_cons {f : Frame K V} {p : Path K V} :
    (keys (f :: p)).Nodup ↔ f.key ∉ f.sibling.keys ∧ f.key ∉ keys p ∧ f.sibling.keys.Nodup ∧
      (keys p).Nodup ∧ f.sibling.keys.Disjoint (keys p) := by
  rw [(keys_cons f p).nodup_iff, List.nodup_append', nodup_keys_on]
  constructor
  · intro h
    obtain ⟨⟨_, hfs, _, hs, _⟩, hp, hd⟩ := h
    exact ⟨hfs, fun hf => hd (mem_keys_on.mpr (Or.inl rfl)) hf, hs, hp,
      fun _ hj hjp => hd (mem_keys_on.mpr (Or.inr (Or.inr hj))) hjp⟩
  · intro h
    obtain ⟨hfs, hfp, hs, hp, hd⟩ := h
    refine ⟨⟨List.not_mem_nil, hfs, List.nodup_nil, hs, List.disjoint_nil_left _⟩, hp, ?_⟩
    intro j hj hjp
    rcases mem_keys_on.mp hj with rfl | hj | hj
    · exact hfp hjp
    · cases hj
    · exact hd hj hjp

theorem above_mem {p : Path K V} {k : K} (h : above p = some k) : k ∈ keys p := by
  cases p with
  | nil => cases h
  | cons f p =>
    cases h
    exact mem_keys_cons.mpr (Or.inl rfl)

/-- A path whose hole takes the trees RB c n. -/
inductive Hole : Color → Nat → Path K V → Prop
  | top {n : Nat} : Hole .black n []
  | red {n : Nat} {d : Dir} {k : K} {v : V} {s : KeyTree K V} {p : Path K V}
      (sibling : RB .black n s) (up : Hole .red n p) : Hole .black n (⟨d, .red, k, v, s⟩ :: p)
  | black {n : Nat} {c e : Color} {d : Dir} {k : K} {v : V} {s : KeyTree K V} {p : Path K V}
      (sibling : RB e n s) (up : Hole .black (n + 1) p) :
      Hole c n (⟨d, .black, k, v, s⟩ :: p)

/-- Above a red parent there is a black one, and a place for black trees. -/
theorem Hole.above_red {n : Nat} {f g : Frame K V} {p : Path K V} (h : Hole .black n (f :: g :: p))
    (hf : f.color = .red) : ∃ m, Hole .black m p := by
  cases h with
  | black => cases hf
  | red _ up =>
    cases up with
    | black _ up => exact ⟨_, up⟩

/-- A parent that is the root is black. -/
theorem Hole.root_black {n : Nat} {f : Frame K V} (h : Hole .black n [f]) : f.color = .black := by
  cases h with
  | red _ up => cases up
  | black => rfl

theorem Hole.plug {c : Color} {n : Nat} {p : Path K V} {t : KeyTree K V} (h : Hole c n p)
    (ht : RB c n t) : ∃ m, RB .black m (plug p t) := by
  induction h generalizing t with
  | @top n => exact ⟨n, ht⟩
  | red sibling up ih => exact ih (RB.on_red _ _ _ ht sibling)
  | black sibling up ih => exact ih (RB.on_black _ _ _ ht sibling)

/-- Going up past red uncles, the first red parent with another uncle is on
the same side of its parent as its child is of it: there is no inner child. -/
def Outer : Path K V → Prop
  | f :: g :: p => f.color = .red →
    if g.sibling.isRed then Outer p else f.dir = g.dir
  | _ => True

instance decidableOuter : (p : Path K V) → Decidable (Outer p)
  | [] => isTrue trivial
  | [_] => isTrue trivial
  | f :: g :: p =>
    have := decidableOuter p
    inferInstanceAs (Decidable
      (f.color = .red → if g.sibling.isRed then Outer p else f.dir = g.dir))

/-- The way back up from a red t, where no child is an inner one: recolor
past red uncles, and rotate once. -/
def settle : Path K V → KeyTree K V → KeyTree K V
  | f :: g :: p, t =>
    if f.color = .black then plug (f :: g :: p) t
    else if g.sibling.isRed then
      settle p (on g.dir .red g.key g.val (on f.dir .black f.key f.val t f.sibling)
        g.sibling.blacken)
    else plug p (on f.dir .black f.key f.val t (on f.dir .red g.key g.val f.sibling g.sibling))
  | p, t => plug p t

theorem not_black {c : Color} (h : ¬ c = .black) : c = .red := by
  cases c with
  | red => rfl
  | black => exact absurd rfl h

theorem Outer.above {f g : Frame K V} {p : Path K V} (h : Outer (f :: g :: p))
    (hf : ¬ f.color = .black) (hu : g.sibling.isRed = true) : Outer p := by
  simpa [Outer, not_black hf, hu] using h

theorem Outer.side {f g : Frame K V} {p : Path K V} (h : Outer (f :: g :: p))
    (hf : ¬ f.color = .black) (hu : ¬ g.sibling.isRed = true) : f.dir = g.dir := by
  simpa [Outer, not_black hf, hu] using h

theorem inorder_on_on (d : Dir) (c1 c2 c3 c4 : Color) (k1 k2 : K) (v1 v2 : V)
    (a b e : KeyTree K V) : (on d c1 k1 v1 (on d c2 k2 v2 a b) e).inorder =
      (on d c3 k2 v2 a (on d c4 k1 v1 b e)).inorder := by
  cases d <;> simp [on, inorder]

theorem inorder_on_congr {a a' b b' : KeyTree K V} (d : Dir) (c c' : Color) (k : K) (v : V)
    (ha : a.inorder = a'.inorder) (hb : b.inorder = b'.inorder) :
    (on d c k v a b).inorder = (on d c' k v a' b').inorder := by
  cases d <;> simp [on, inorder, ha, hb]

theorem keys_plug_congr {t u : KeyTree K V} (p : Path K V) (h : t.inorder = u.inorder) :
    (plug p t).keys = (plug p u).keys := by
  rw [KeyTree.keys, KeyTree.keys, inorder_plug, inorder_plug, h]

/-- No recoloring and no rotation changes the order. -/
theorem settle_inorder (p : Path K V) (t : KeyTree K V) (h : Outer p) :
    (settle p t).inorder = (plug p t).inorder := by
  induction p, t using settle.induct with
  | case1 f g p t hf => rw [settle, if_pos hf]
  | case2 f g p t hf hu ih =>
    rw [settle, if_neg hf, if_pos hu, ih (h.above hf hu), plug, plug, inorder_plug, inorder_plug]
    rw [inorder_on_congr g.dir .red g.color _ _ (inorder_on_congr f.dir .black f.color _ _ rfl rfl)
      (inorder_blacken g.sibling)]
  | case3 f g p t hf hu =>
    rw [settle, if_neg hf, if_neg hu, plug, plug, inorder_plug, inorder_plug, ← h.side hf hu]
    rw [inorder_on_on f.dir g.color f.color .black .red]
  | case4 p t hp =>
    rw [settle]
    exact hp

/-- Where no child is an inner one, the way up restores the colors. -/
theorem settle_rb {p : Path K V} {t : KeyTree K V} {n : Nat} (ht : RB .red n t)
    (hp : Hole .black n p) (h : Outer p) : ∃ c m, RB c m (settle p t) := by
  induction p, t using settle.induct generalizing n with
  | case1 f g p t hf =>
    rw [settle, if_pos hf]
    cases hp with
    | red => simp at hf
    | black sibling up =>
      obtain ⟨m, hm⟩ := up.plug (RB.on_black _ _ _ ht sibling)
      exact ⟨.black, m, hm⟩
  | case2 f g p t hf hu ih =>
    rw [settle, if_neg hf, if_pos hu]
    cases hp with
    | black => simp at hf
    | red sibling up =>
      -- a red parent has a black parent, whose other child is red
      cases up with
      | black uncle up =>
        have hred := uncle.isRed.mp hu
        subst hred
        exact ih (RB.on_red _ _ _ (RB.on_black _ _ _ ht sibling) uncle.blacken_red) up
          (h.above hf hu)
  | case3 f g p t hf hu =>
    rw [settle, if_neg hf, if_neg hu]
    cases hp with
    | black => simp at hf
    | red sibling up =>
      cases up with
      | @black _ _ e _ _ _ _ _ uncle up =>
        have hblack : e = .black := by
          cases e with
          | red => exact absurd (uncle.isRed.mpr rfl) hu
          | black => rfl
        subst hblack
        obtain ⟨m, hm⟩ := up.plug (RB.on_black _ _ _ ht (RB.on_red _ _ _ sibling uncle))
        exact ⟨.black, m, hm⟩
  | case4 p t hp' =>
    rw [settle]
    · cases p with
      | nil => exact ⟨.red, n, ht⟩
      | cons f p =>
        cases p with
        | nil =>
          cases hp with
          | red _ up => cases up
          | black sibling up => exact ⟨.black, _, RB.on_black _ _ _ ht sibling⟩
        | cons g p => exact absurd rfl (hp' f g p)
    · exact hp'

end Path

section
variable [LinearOrder V]

/-- The values increase from left to right. -/
def KeyTree.Sorted (t : KeyTree K V) : Prop := t.inorder.Pairwise (fun x y => x.2 < y.2)

/-- The key at the value v. -/
def KeyTree.find : KeyTree K V → V → Option K
  | .nil, _ => none
  | .node _ k w l r, v => if v < w then l.find v else if w < v then r.find v else some k

/-- The path that a search for v takes, from a node at the end of p. -/
def KeyTree.path : KeyTree K V → V → Path K V → Path K V
  | .nil, _, p => p
  | .node c k w l r, v, p =>
    if v < w then l.path v (⟨.left, c, k, w, r⟩ :: p)
    else if w < v then r.path v (⟨.right, c, k, w, l⟩ :: p)
    else p

theorem KeyTree.find_mem {t : KeyTree K V} {v : V} {k : K} (h : t.find v = some k) :
    (k, v) ∈ t.inorder := by
  induction t with
  | nil => cases h
  | node c k' w l r ihl ihr =>
    unfold KeyTree.find at h
    simp only [KeyTree.inorder, List.mem_append, List.mem_cons]
    split at h
    · exact Or.inl (ihl h)
    · rename_i hlt
      split at h
      · exact Or.inr (Or.inr (ihr h))
      · rename_i hgt
        cases h
        have hvw : v = w := le_antisymm (not_lt.mp hgt) (not_lt.mp hlt)
        exact Or.inr (Or.inl (by rw [hvw]))

theorem KeyTree.Sorted.node {c : Color} {k : K} {v : V} {l r : KeyTree K V}
    (h : (KeyTree.node c k v l r).Sorted) : l.Sorted ∧ r.Sorted ∧
      (∀ x ∈ l.inorder, x.2 < v) ∧ (∀ x ∈ r.inorder, v < x.2) := by
  unfold KeyTree.Sorted at h
  rw [KeyTree.inorder, List.pairwise_append, List.pairwise_cons] at h
  obtain ⟨hl, ⟨hkr, hr⟩, hlr⟩ := h
  exact ⟨hl, hr, fun x hx => hlr x hx (k, v) List.mem_cons_self, fun x hx => hkr x hx⟩

/-- In a search tree the search finds what is there. -/
theorem KeyTree.Sorted.find_iff {t : KeyTree K V} (h : t.Sorted) (v : V) (k : K) :
    t.find v = some k ↔ (k, v) ∈ t.inorder := by
  refine ⟨KeyTree.find_mem, fun hm => ?_⟩
  induction t with
  | nil => cases hm
  | node c k' w l r ihl ihr =>
    obtain ⟨hl, hr, hlw, hwr⟩ := h.node
    unfold KeyTree.find
    simp only [KeyTree.inorder, List.mem_append, List.mem_cons] at hm
    rcases hm with hm | hm | hm
    · rw [if_pos (hlw _ hm)]
      exact ihl hl hm
    · cases hm
      rw [if_neg (lt_irrefl v), if_neg (lt_irrefl v)]
    · rw [if_neg (not_lt.mpr (le_of_lt (hwr _ hm))), if_pos (hwr _ hm)]
      exact ihr hr hm

/-- A search that finds nothing ends at a hole of the tree, between the
smaller values and the greater ones. -/
theorem KeyTree.path_spec {t : KeyTree K V} {v : V} (hf : t.find v = none) (p : Path K V)
    (h : (Path.plug p t).Sorted) (hlo : ∀ x ∈ Path.before p, x.2 < v)
    (hhi : ∀ x ∈ Path.after p, v < x.2) :
    Path.plug (t.path v p) .nil = Path.plug p t ∧
      (∀ x ∈ Path.before (t.path v p), x.2 < v) ∧ (∀ x ∈ Path.after (t.path v p), v < x.2) := by
  induction t generalizing p with
  | nil => exact ⟨rfl, hlo, hhi⟩
  | node c k w l r ihl ihr =>
    have hsorted := h
    unfold KeyTree.Sorted at hsorted
    rw [Path.inorder_plug, KeyTree.inorder, List.pairwise_append, List.pairwise_append,
      List.pairwise_append, List.pairwise_cons] at hsorted
    obtain ⟨⟨_, ⟨_, ⟨hwr, _⟩, hlw⟩, _⟩, _, _⟩ := hsorted
    unfold KeyTree.find at hf
    unfold KeyTree.path
    split at hf
    · rename_i hlt
      rw [if_pos hlt]
      refine ihl hf _ h hlo ?_
      intro x hx
      simp only [Path.after, List.cons_append, List.mem_cons, List.mem_append] at hx
      rcases hx with rfl | hx | hx
      · exact hlt
      · exact lt_trans hlt (hwr x hx)
      · exact hhi x hx
    · rename_i hlt
      rw [if_neg hlt]
      split at hf
      · rename_i hgt
        rw [if_pos hgt]
        refine ihr hf _ h ?_ hhi
        intro x hx
        simp only [Path.before, List.mem_append, List.mem_singleton] at hx
        rcases hx with (hx | hx) | rfl
        · exact hlo x hx
        · exact lt_trans (hlw x hx (k, w) List.mem_cons_self) hgt
        · exact hgt
      · cases hf

/-- The hole that a search ends at takes a missing tree. -/
theorem KeyTree.path_hole {t : KeyTree K V} {v : V} (hf : t.find v = none) {c : Color} {n : Nat}
    (ht : RB c n t) {p : Path K V} (hp : Path.Hole c n p) : Path.Hole .black 0 (t.path v p) := by
  induction ht generalizing p with
  | nil => exact hp
  | red left right ihl ihr =>
    unfold KeyTree.find at hf
    unfold KeyTree.path
    split at hf
    · rename_i hlt
      rw [if_pos hlt]
      exact ihl hf (.red right hp)
    · rename_i hlt
      rw [if_neg hlt]
      split at hf
      · rename_i hgt
        rw [if_pos hgt]
        exact ihr hf (.red left hp)
      · cases hf
  | black left right ihl ihr =>
    unfold KeyTree.find at hf
    unfold KeyTree.path
    split at hf
    · rename_i hlt
      rw [if_pos hlt]
      exact ihl hf (.black right hp)
    · rename_i hlt
      rw [if_neg hlt]
      split at hf
      · rename_i hgt
        rw [if_pos hgt]
        exact ihr hf (.black left hp)
      · cases hf

theorem KeyTree.path_length (t : KeyTree K V) (v : V) (p : Path K V) :
    (t.path v p).length ≤ t.keys.length + p.length := by
  induction t generalizing p with
  | nil => simp [KeyTree.path]
  | node c k w l r ihl ihr =>
    have hl := ihl (⟨.left, c, k, w, r⟩ :: p)
    have hr := ihr (⟨.right, c, k, w, l⟩ :: p)
    simp only [KeyTree.keys, KeyTree.inorder, List.length_map, List.length_append,
      List.length_cons] at hl hr ⊢
    unfold KeyTree.path
    split
    · omega
    · split <;> omega

/-- A new key at the hole that the search for its value ends at, and the way
back up. -/
def KeyTree.insert (t : KeyTree K V) (k : K) (v : V) : KeyTree K V :=
  (Path.settle (t.path v []) (.node .red k v .nil .nil)).blacken

variable {t : KeyTree K V} {k : K} {v : V}

/-- An insertion without an inner child puts the new key among the old ones. -/
theorem KeyTree.insert_inorder (hs : t.Sorted) (hf : t.find v = none)
    (ho : Path.Outer (t.path v [])) : (t.insert k v).Sorted ∧
      ∀ x, x ∈ (t.insert k v).inorder ↔ x = (k, v) ∨ x ∈ t.inorder := by
  obtain ⟨hplug, hlo, hhi⟩ := KeyTree.path_spec hf [] hs (by simp [Path.before])
    (by simp [Path.after])
  have ht : t.inorder = Path.before (t.path v []) ++ Path.after (t.path v []) := by
    have h := congrArg KeyTree.inorder hplug
    rw [Path.inorder_plug] at h
    simpa [Path.plug, KeyTree.inorder] using h.symm
  have hi : (t.insert k v).inorder =
      Path.before (t.path v []) ++ (k, v) :: Path.after (t.path v []) := by
    rw [KeyTree.insert, KeyTree.inorder_blacken, Path.settle_inorder _ _ ho, Path.inorder_plug]
    simp [KeyTree.inorder]
  unfold KeyTree.Sorted at hs ⊢
  rw [hi, ht]
  rw [ht] at hs
  refine ⟨pairwise_insert hs hlo hhi, fun x => ?_⟩
  simp only [List.mem_append, List.mem_cons]
  exact or_left_comm

theorem KeyTree.insert_keys (hs : t.Sorted) (hf : t.find v = none) (ho : Path.Outer (t.path v []))
    (j : K) : j ∈ (t.insert k v).keys ↔ j = k ∨ j ∈ t.keys := by
  obtain ⟨-, hmem⟩ := KeyTree.insert_inorder (k := k) hs hf ho
  simp only [KeyTree.keys, List.mem_map, hmem]
  constructor
  · intro hin
    obtain ⟨x, rfl | hx, rfl⟩ := hin
    · exact Or.inl rfl
    · exact Or.inr ⟨x, hx, rfl⟩
  · intro hin
    rcases hin with rfl | ⟨x, hx, rfl⟩
    · exact ⟨(j, v), Or.inl rfl, rfl⟩
    · exact ⟨x, Or.inr hx, rfl⟩

theorem KeyTree.insert_find (hs : t.Sorted) (hf : t.find v = none)
    (ho : Path.Outer (t.path v [])) (w : V) :
    (t.insert k v).find w = if w = v then some k else t.find w := by
  obtain ⟨hs', hmem⟩ := KeyTree.insert_inorder (k := k) hs hf ho
  apply Option.ext
  intro j
  rw [hs'.find_iff, hmem]
  by_cases hw : w = v
  · subst hw
    have hnone : (j, w) ∉ t.inorder := by
      intro hj
      rw [← hs.find_iff, hf] at hj
      cases hj
    simp [hnone, eq_comm]
  · simp [hw, hs.find_iff]

theorem KeyTree.insert_rb {n : Nat} (ht : RB .black n t) (hf : t.find v = none)
    (ho : Path.Outer (t.path v [])) : ∃ m, RB .black m (t.insert k v) := by
  have hnew : RB .red 0 (.node .red k v .nil .nil : KeyTree K V) := .red .nil .nil
  obtain ⟨c, m, hrb⟩ := Path.settle_rb hnew (KeyTree.path_hole hf ht .top) ho
  exact hrb.blacken

end

namespace KeyTree

/-- How many nodes are on the longest way down. -/
def height : KeyTree K V → Nat
  | nil => 0
  | node _ _ _ l r => max l.height r.height + 1

theorem length_keys_on_node {c : Color} {k : K} {v : V} {l r : KeyTree K V} :
    (node c k v l r).keys.length = l.keys.length + r.keys.length + 1 := by
  simp only [keys, inorder, List.length_map, List.length_append, List.length_cons]
  omega

/-- Of the nodes on a way down at most every second one is red. -/
theorem RB.height_le {c : Color} {n : Nat} {t : KeyTree K V} (h : RB c n t) :
    t.height ≤ 2 * n + if c = .red then 1 else 0 := by
  induction h with
  | nil => exact Nat.zero_le _
  | red left right ihl ihr =>
    simp only [reduceCtorEq, if_false, if_true, height] at ihl ihr ⊢
    omega
  | black left right ihl ihr =>
    simp only [reduceCtorEq, if_false, height]
    split at ihl <;> split at ihr <;> omega

/-- The black nodes alone fill a tree of the black height. -/
theorem RB.pow_le {c : Color} {n : Nat} {t : KeyTree K V} (h : RB c n t) :
    2 ^ n ≤ t.keys.length + 1 := by
  induction h with
  | nil => exact Nat.le_refl 1
  | red left right ihl ihr =>
    rw [length_keys_on_node]
    omega
  | black left right ihl ihr =>
    rw [length_keys_on_node, Nat.pow_succ]
    omega

/-- A red-black tree is at most twice as high as a full tree of its keys. -/
theorem RB.height_log {n : Nat} {t : KeyTree K V} (h : RB .black n t) :
    t.height ≤ 2 * Nat.log2 (t.keys.length + 1) := by
  have hheight : t.height ≤ 2 * n := h.height_le
  have hlog : n ≤ Nat.log2 (t.keys.length + 1) :=
    (Nat.le_log2 (Nat.succ_ne_zero t.keys.length)).mpr h.pow_le
  omega

theorem path_length_height [LinearOrder V] (t : KeyTree K V) (v : V) (p : Path K V) :
    (t.path v p).length ≤ t.height + p.length := by
  induction t generalizing p with
  | nil => simp [path]
  | node c k w l r ihl ihr =>
    have hl := ihl (⟨.left, c, k, w, r⟩ :: p)
    have hr := ihr (⟨.right, c, k, w, l⟩ :: p)
    simp only [height, List.length_cons] at hl hr ⊢
    unfold path
    split
    · omega
    · split <;> omega

end KeyTree

end

end Mepl.Base
