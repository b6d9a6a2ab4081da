import Mepl.Ptrset.BstTree

namespace Mepl
open Base

/-- kp made a child of parent, as far as kp knows. -/
def hang (kids : List Kid) (kp parent : Ptr) : List Kid :=
  match kp with
  | none => kids
  | some k => kids.modify k (fun kid => kid.setParent parent)

/-- kp made the child at a place, as far as the kid above knows. -/
def relink (kids : List Kid) (p : Path Nat PtrT) (kp : Ptr) : List Kid :=
  match p with
  | [] => kids
  | f :: _ => kids.modify f.key (fun kid => kid.setChild f.dir kp)

/-- The kids after a rotation at x: y comes up, and inner changes over to x. -/
def rotated (d : Dir) (kids : List Kid) (x y : Nat) (inner : Ptr) (p : Path Nat PtrT) : List Kid :=
  let kids := kids.modify x (fun kid => kid.setChild d.other inner)
  let kids := hang kids inner (some x)
  let kids := kids.modify y (fun kid => kid.setParent (Path.above p))
  let kids := relink kids p (some y)
  let kids := kids.modify y (fun kid => kid.setChild d (some x))
  kids.modify x (fun kid => kid.setParent (some y))

section
variable {d : Dir} {kids : List Kid} {x j : Nat} {kp q : Ptr} {p : Path Nat PtrT}

@[simp] theorem length_hang : (hang kids kp q).length = kids.length := by
  cases kp with
  | none => rfl
  | some k => exact List.length_modify ..

@[simp] theorem length_relink : (relink kids p kp).length = kids.length := by
  cases p with
  | nil => rfl
  | cons f p => exact List.length_modify ..

theorem hang_other (h : kp ≠ some j) : (hang kids kp q)[j]? = kids[j]? := by
  cases kp with
  | none => rfl
  | some k => exact List.getElem?_modify_ne _ kids (fun hk => h (congrArg some hk))

theorem relink_other (h : Path.above p ≠ some j) : (relink kids p kp)[j]? = kids[j]? := by
  cases p with
  | nil => rfl
  | cons f p => exact List.getElem?_modify_ne _ kids (fun hk => h (congrArg some hk))

theorem hang_field {α : Type} {g : Kid → α} (hparent : ∀ kid q, g (kid.setParent q) = g kid) :
    (hang kids kp q).map g = kids.map g := by
  cases kp with
  | none => rfl
  | some k => exact map_field_modify kids k (fun kid => hparent kid q)

theorem relink_field {α : Type} {g : Kid → α} (hchild : ∀ kid d q, g (kid.setChild d q) = g kid) :
    (relink kids p kp).map g = kids.map g := by
  cases p with
  | nil => rfl
  | cons f p => exact map_field_modify kids f.key (fun kid => hchild kid f.dir kp)

theorem deref_hang (h : kp ≠ some j) : deref (hang kids kp q) (some j) = deref kids (some j) := by
  simp only [deref, load, hang_other h]

theorem hang_run (h : ∀ k, kp = some k → k < kids.length) :
    (if kp.isSome then assign kids kp (fun k => k.setParent q) else pure kids) =
      .ok (hang kids kp q) := by
  cases kp with
  | none => rfl
  | some k => exact assign_lt (h k rfl) _

/-- The side is found by comparing with the child on one side only. -/
theorem relink_run {root : Ptr} (h : ∀ f r, p = f :: r → ∃ kf, kids[f.key]? = some kf ∧
      kf.child f.dir = some x ∧ kf.child f.dir.other ≠ some x) :
    (if (Path.above p).isNone then pure (kids, kp) else do
        let side := if some x = (← deref kids (Path.above p)).child d then d else d.other
        pure (← assign kids (Path.above p) (fun k => k.setChild side kp), root) :
      Res (List Kid × Ptr)) =
      .ok (relink kids p kp, if (Path.above p).isNone then kp else root) := by
  cases p with
  | nil => rfl
  | cons f r =>
    obtain ⟨kf, hf, hx, hs⟩ := h f r rfl
    have hside : (if some x = kf.child d then d else d.other) = f.dir := by
      by_cases hd : f.dir = d
      · rw [← hd, if_pos hx.symm]
      · have ho : f.dir.other = d := by
          revert hd
          cases f.dir <;> cases d <;> simp [Dir.other]
        rw [← ho, if_neg (Ne.symm hs), Dir.other_other]
    have hl := (List.getElem?_eq_some_iff.mp hf).1
    simp [Path.above, deref_some hf, hside, assign_lt hl, relink]

end

section
variable {d : Dir} {kids : List Kid} {x y : Nat} {kx ky : Kid} {p : Path Nat PtrT}

/-- With the kids around x there and apart, no step of a rotation fails. -/
theorem kid_rotate_run (hx : kids[x]? = some kx) (hy : kids[y]? = some ky) (hxy : x ≠ y)
    (hchild : kx.child d.other = some y) (habove : kx.parent = Path.above p)
    (hinner : ∀ i, ky.child d = some i → i ≠ x ∧ i ≠ y ∧ i < kids.length)
    (hpath : ∀ f q, p = f :: q → f.key ≠ x ∧ f.key ≠ y ∧ ky.child d ≠ some f.key ∧
      ∃ kf, kids[f.key]? = some kf ∧ kf.child f.dir = some x ∧ kf.child f.dir.other ≠ some x)
    (root : Ptr) : kidRotate d kids root (some x) =
      .ok (rotated d kids x y (ky.child d) p, if (Path.above p).isNone then some y else root) := by
  have hxl : x < kids.length := (List.getElem?_eq_some_iff.mp hx).1
  have hyl : y < kids.length := (List.getElem?_eq_some_iff.mp hy).1
  have hix : ky.child d ≠ some x := fun h => (hinner x h).1 rfl
  have hiy : ky.child d ≠ some y := fun h => (hinner y h).2.1 rfl
  have hlink : ∀ f q, p = f :: q → ∃ kf, ((hang (kids.modify x (fun k => k.setChild d.other
      (ky.child d))) (ky.child d) (some x)).modify y
        (fun k => k.setParent (Path.above p)))[f.key]? = some kf ∧
      kf.child f.dir = some x ∧ kf.child f.dir.other ≠ some x := by
    intro f q hp
    obtain ⟨hfx, hfy, hif, kf, hkf, hf⟩ := hpath f q hp
    refine ⟨kf, ?_, hf⟩
    rw [List.getElem?_modify_ne _ _ (Ne.symm hfy), hang_other hif,
      List.getElem?_modify_ne _ _ (Ne.symm hfx), hkf]
  have hderef1 : deref (kids.modify x (fun k => k.setChild d.other (ky.child d))) (some y) =
      .ok ky := by
    rw [deref_modify_ne _ hxy, deref_some hy]
  have hderef2 : deref (hang (kids.modify x (fun k => k.setChild d.other (ky.child d)))
      (ky.child d) (some x)) (some x) = .ok (kx.setChild d.other (ky.child d)) := by
    rw [deref_hang hix, deref_modify_eq, deref_some hx]
    rfl
  unfold kidRotate
  simp only [deref_some hx, deref_some hy, ok_bind, hchild, assign_lt hxl, hderef1]
  rw [hang_run (by intro i hi; simpa using (hinner i hi).2.2)]
  simp only [ok_bind, hderef2, Kid.set_child_parent, habove]
  rw [assign_lt (by simpa using hyl), ok_bind, relink_run hlink]
  simp [assign_lt, hxl, hyl, rotated]

variable {inner : Ptr} {j i : Nat}

theorem rotated_other (hx : x ≠ j) (hy : y ≠ j) (hi : inner ≠ some j) (hp : Path.above p ≠ some j) :
    (rotated d kids x y inner p)[j]? = kids[j]? := by
  simp [rotated, hx, hy, hang_other hi, relink_other hp]

theorem rotated_lower (hxy : x ≠ y) (hi : inner ≠ some x) (hp : Path.above p ≠ some x)
    (hx : kids[x]? = some kx) : (rotated d kids x y inner p)[x]? =
      some ((kx.setChild d.other inner).setParent (some y)) := by
  simp [rotated, hxy.symm, hang_other hi, relink_other hp, hx]

theorem rotated_upper (hxy : x ≠ y) (hi : inner ≠ some y) (hp : Path.above p ≠ some y)
    (hy : kids[y]? = some ky) : (rotated d kids x y inner p)[y]? =
      some ((ky.setParent (Path.above p)).setChild d (some x)) := by
  simp [rotated, hxy, hang_other hi, relink_other hp, hy]

theorem rotated_inner (hx : x ≠ i) (hy : y ≠ i) (hp : Path.above p ≠ some i) :
    (rotated d kids x y (some i) p)[i]? =
      kids[i]?.map (fun kid => kid.setParent (some x)) := by
  simp [rotated, hang, hx, hy, relink_other hp]

theorem rotated_above {f : Frame Nat PtrT} (hx : x ≠ f.key) (hy : y ≠ f.key)
    (hi : inner ≠ some f.key) : (rotated d kids x y inner (f :: p))[f.key]? =
      kids[f.key]?.map (fun kid => kid.setChild f.dir (some y)) := by
  simp [rotated, relink, hx, hy, hang_other hi]

/-- A rotation assigns to no other fields. -/
theorem rotated_field {α : Type} {g : Kid → α} (hchild : ∀ kid d q, g (kid.setChild d q) = g kid)
    (hparent : ∀ kid q, g (kid.setParent q) = g kid) :
    (rotated d kids x y inner p).map g = kids.map g := by
  simp only [rotated]
  have hc : ∀ d q, ∀ kid : Kid, g (kid.setChild d q) = g kid := fun d q kid => hchild kid d q
  have hp : ∀ q, ∀ kid : Kid, g (kid.setParent q) = g kid := fun q kid => hparent kid q
  rw [map_field_modify _ _ (hp _), map_field_modify _ _ (hc _ _), relink_field hchild,
    map_field_modify _ _ (hp _), hang_field hparent, map_field_modify _ _ (hc _ _)]

variable {cx cy : Color} {vx vy : PtrT} {a b c : KeyTree Nat PtrT}

/-- The parts that a rotation touches have no kid in common. -/
structure Apart (x y : Nat) (a b c : KeyTree Nat PtrT) (p : Path Nat PtrT) : Prop where
  pair : x ≠ y
  outer : ∀ j, j ∈ a.keys ∨ j ∈ c.keys →
    x ≠ j ∧ y ≠ j ∧ b.top ≠ some j ∧ Path.above p ≠ some j
  inner : ∀ j ∈ b.keys, x ≠ j ∧ y ≠ j ∧ Path.above p ≠ some j
  path : ∀ j ∈ Path.keys p, x ≠ j ∧ y ≠ j ∧ b.top ≠ some j

theorem apart_of_nodup
    (hn : (Path.plug p (.on d cx x vx a (.on d cy y vy b c))).keys.Nodup) :
    Apart x y a b c p ∧ b.keys.Nodup ∧ (Path.keys p).Nodup := by
  obtain ⟨hnT, hnP, hTP⟩ := Path.nodup_keys_plug.mp hn
  obtain ⟨hxA, hxY, -, hnY, hAY⟩ := KeyTree.nodup_keys_on.mp hnT
  obtain ⟨hyB, hyC, hnB, -, hBC⟩ := KeyTree.nodup_keys_on.mp hnY
  have hy : y ∈ (KeyTree.on d cy y vy b c).keys := KeyTree.mem_keys_on.mpr (Or.inl rfl)
  have hb : ∀ j ∈ b.keys, j ∈ (KeyTree.on d cy y vy b c).keys :=
    fun j hj => KeyTree.mem_keys_on.mpr (Or.inr (Or.inl hj))
  have hc : ∀ j ∈ c.keys, j ∈ (KeyTree.on d cy y vy b c).keys :=
    fun j hj => KeyTree.mem_keys_on.mpr (Or.inr (Or.inr hj))
  have hxP : x ∉ Path.keys p := hTP (KeyTree.mem_keys_on.mpr (Or.inl rfl))
  have hAP : ∀ j ∈ a.keys, j ∉ Path.keys p :=
    fun j hj => hTP (KeyTree.mem_keys_on.mpr (Or.inr (Or.inl hj)))
  have hYP : ∀ j ∈ (KeyTree.on d cy y vy b c).keys, j ∉ Path.keys p :=
    fun j hj => hTP (KeyTree.mem_keys_on.mpr (Or.inr (Or.inr hj)))
  have hne : ∀ {i j : Nat} {ks : List Nat}, i ∉ ks → j ∈ ks → i ≠ j :=
    fun hi hj he => hi (he ▸ hj)
  refine ⟨⟨hne hxY hy, ?_, ?_, ?_⟩, hnB, hnP⟩
  · rintro j (hj | hj)
    · exact ⟨hne hxA hj, (hne (fun h => hAY h hy) hj), fun ht => hAY hj (hb j (KeyTree.top_mem ht)),
        fun hp => hAP j hj (Path.above_mem hp)⟩
    · exact ⟨hne hxY (hc j hj), hne hyC hj, fun ht => hBC (KeyTree.top_mem ht) hj,
        fun hp => hYP j (hc j hj) (Path.above_mem hp)⟩
  · intro j hj
    exact ⟨hne hxY (hb j hj), hne hyB hj, fun hp => hYP j (hb j hj) (Path.above_mem hp)⟩
  · intro j hj
    exact ⟨hne hxP hj, hne (hYP y hy) hj, fun ht => hYP j (hb j (KeyTree.top_mem ht)) hj⟩

theorem rotated_tree (hap : Apart x y a b c p) (hnB : b.keys.Nodup) (hnP : (Path.keys p).Nodup)
    (hx : KidAt kids d x (Path.above p) a.top (some y) vx cx) (ha : TreeAt kids (some x) a)
    (hy : KidAt kids d y (some x) b.top c.top vy cy) (hb : TreeAt kids (some y) b)
    (hc : TreeAt kids (some y) c) (hp : PathAt kids (some x) p) :
    TreeAt (rotated d kids x y b.top p) none
      (Path.plug p (.on d cy y vy (.on d cx x vx a b) c)) := by
  obtain ⟨kx, hx, -, hxa, -, hxv, hxc⟩ := hx
  obtain ⟨ky, hy, -, -, hyc, hyv, hyc'⟩ := hy
  have hbx : b.top ≠ some x := fun ht => (hap.inner x (KeyTree.top_mem ht)).1 rfl
  have hby : b.top ≠ some y := fun ht => (hap.inner y (KeyTree.top_mem ht)).2.1 rfl
  have hpx : Path.above p ≠ some x := fun hp => (hap.path x (Path.above_mem hp)).1 rfl
  have hpy : Path.above p ≠ some y := fun hp => (hap.path y (Path.above_mem hp)).2.1 rfl
  have hupper : KidAt (rotated d kids x y b.top p) d y (Path.above p) (some x) c.top vy cy := by
    refine ⟨_, rotated_upper hap.pair hby hpy hy, ?_, ?_, ?_, ?_, ?_⟩ <;> simp [hyc, hyv, hyc']
  have hlower : KidAt (rotated d kids x y b.top p) d x (some y) a.top b.top vx cx := by
    refine ⟨_, rotated_lower hap.pair hbx hpx hx, ?_, ?_, ?_, ?_, ?_⟩ <;> simp [hxa, hxv, hxc]
  rw [tree_at_plug, tree_at_on, tree_at_on, KeyTree.top_on, KeyTree.top_on]
  refine ⟨⟨hupper, ⟨hlower, ha.congr ?_, hb.reparent hnB ?_ ?_⟩, hc.congr ?_⟩, hp.relink hnP ?_ ?_⟩
  · intro j hj
    obtain ⟨hxj, hyj, hbj, hpj⟩ := hap.outer j (Or.inl hj)
    exact rotated_other hxj hyj hbj hpj
  · intro j hj
    obtain ⟨hxj, hyj, hpj⟩ := hap.inner j (KeyTree.top_mem hj)
    rw [hj]
    exact rotated_inner hxj hyj hpj
  · intro j hj hbj
    obtain ⟨hxj, hyj, hpj⟩ := hap.inner j hj
    exact rotated_other hxj hyj hbj hpj
  · intro j hj
    obtain ⟨hxj, hyj, hbj, hpj⟩ := hap.outer j (Or.inr hj)
    exact rotated_other hxj hyj hbj hpj
  · rintro f q rfl
    obtain ⟨hxf, hyf, hbf⟩ := hap.path f.key (Path.above_mem rfl)
    exact rotated_above hxf hyf hbf
  · intro j hj hpj
    obtain ⟨hxj, hyj, hbj⟩ := hap.path j hj
    exact rotated_other hxj hyj hbj hpj

theorem rotated_keeps : Keeps (Path.plug p (.on d cx x vx a (.on d cy y vy b c))).keys kids
    (rotated d kids x y b.top p) := by
  constructor
  case edges =>
    exact rotated_field Kid.set_child_edge Kid.set_parent_edge
  case others =>
    intro j hj
    simp only [Path.mem_keys_plug, KeyTree.mem_keys_on, not_or] at hj
    obtain ⟨⟨hxj, -, hyj, hbj, -⟩, hpj⟩ := hj
    exact rotated_other (Ne.symm hxj) (Ne.symm hyj) (fun ht => hbj (KeyTree.top_mem ht))
      (fun hp => hpj (Path.above_mem hp))

/-- A rotation at any place: y comes up, x goes down, b changes over. -/
theorem kid_rotate_rotated
    (h : TreeAt kids none (Path.plug p (.on d cx x vx a (.on d cy y vy b c))))
    (hn : (Path.plug p (.on d cx x vx a (.on d cy y vy b c))).keys.Nodup) :
    kidRotate d kids (Path.plug p (.on d cx x vx a (.on d cy y vy b c))).top (some x) =
        .ok (rotated d kids x y b.top p,
          (Path.plug p (.on d cy y vy (.on d cx x vx a b) c)).top) ∧
      Rearranged (Path.plug p (.on d cx x vx a (.on d cy y vy b c)))
        (Path.plug p (.on d cy y vy (.on d cx x vx a b) c)) kids (rotated d kids x y b.top p) := by
  obtain ⟨hT, hP⟩ := tree_at_plug.mp h
  obtain ⟨hX, hA, hY⟩ := tree_at_on.mp hT
  obtain ⟨hY, hB, hC⟩ := tree_at_on.mp hY
  rw [KeyTree.top_on] at hX hP
  obtain ⟨hap, hnB, hnP⟩ := apart_of_nodup hn
  have hkeys := Path.keys_plug_congr p (Path.inorder_on_on d cy cx cx cy y x vy vx a b c)
  refine ⟨?_, rotated_tree hap hnB hnP hX hA hY hB hC hP, hkeys, rotated_keeps⟩
  obtain ⟨kx, hx, hxp, -, hxy, -, -⟩ := hX
  obtain ⟨ky, hy, -, hyb, -, -, -⟩ := hY
  have hinner : ∀ i, ky.child d = some i → i ≠ x ∧ i ≠ y ∧ i < kids.length := by
    intro i hi
    have hi := KeyTree.top_mem (hyb.symm.trans hi)
    obtain ⟨hxi, hyi, -⟩ := hap.inner i hi
    exact ⟨hxi.symm, hyi.symm, hB.lt i hi⟩
  have hpath : ∀ f q, p = f :: q → f.key ≠ x ∧ f.key ≠ y ∧ ky.child d ≠ some f.key ∧
      ∃ kf, kids[f.key]? = some kf ∧ kf.child f.dir = some x ∧ kf.child f.dir.other ≠ some x := by
    rintro f q rfl
    obtain ⟨hxf, hyf, hbf⟩ := hap.path f.key (Path.above_mem rfl)
    obtain ⟨⟨kf, hf, -, hfx, hfs, -, -⟩, -⟩ := hP
    refine ⟨hxf.symm, hyf.symm, hyb ▸ hbf, kf, hf, hfx, ?_⟩
    intro hsx
    have hxs : x ∈ f.sibling.keys := KeyTree.top_mem (hfs.symm.trans hsx)
    exact (hap.path x (Path.mem_keys_cons.mpr (Or.inr (Or.inl hxs)))).1 rfl
  rw [kid_rotate_run hx hy hap.pair hxy hxp hinner hpath, hyb]
  cases p with
  | nil => simp [Path.above, Path.plug]
  | cons f p =>
    rw [Path.top_plug_cons f p _ (.on d cy y vy (.on d cx x vx a b) c)]
    rfl

end

end Mepl
