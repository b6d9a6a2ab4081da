import Mepl.Ptrset.Rotate

namespace Mepl
open Base

section
variable {kids : List Kid} {d e : Dir} {k x gk fk : Nat} {v gv fv : PtrT} {c gc : Color}
  {a b t u fs : KeyTree Nat PtrT} {p : Path Nat PtrT}

theorem KidAt.deref {parent l r : Ptr} (h : KidAt kids d k parent l r v c) :
    ∃ kid, deref kids (some k) = .ok kid ∧ kid.parent = parent ∧ kid.child d = l ∧
      kid.child d.other = r ∧ kid.v = v ∧ kid.color = c := by
  obtain ⟨kid, hkid, h⟩ := h
  exact ⟨kid, deref_some hkid, h⟩

theorem set_color_spec (h : TreeAt kids none (Path.plug p (.on d c k v a b)))
    (hn : (Path.plug p (.on d c k v a b)).keys.Nodup) (c' : Color) :
    ∃ kids', setColor kids (some k) c' = .ok kids' ∧
      Rearranged (Path.plug p (.on d c k v a b)) (Path.plug p (.on d c' k v a b)) kids kids' := by
  obtain ⟨hT, hP⟩ := tree_at_plug.mp h
  obtain ⟨hK, hA, hB⟩ := tree_at_on.mp hT
  obtain ⟨hnT, -, hTP⟩ := Path.nodup_keys_plug.mp hn
  obtain ⟨hkA, hkB, -⟩ := KeyTree.nodup_keys_on.mp hnT
  have hkT : k ∈ (KeyTree.on d c k v a b).keys := KeyTree.mem_keys_on.mpr (Or.inl rfl)
  have hother : ∀ j, k ≠ j → (kids.modify k (fun kid => kid.setColor c'))[j]? = kids[j]? :=
    fun j hj => List.getElem?_modify_ne _ kids hj
  have hne : ∀ {j : Nat} {ks : List Nat}, k ∉ ks → j ∈ ks → k ≠ j := fun hk hj he => hk (he ▸ hj)
  have hkeys := Path.keys_plug_congr p (Path.inorder_on_congr (a := a) (b := b) d c' c k v rfl rfl)
  have hedges := map_field_modify kids k (fun kid => kid.set_color_edge c')
  refine ⟨_, assign_lt hK.lt _, ?_, hkeys, hedges, ?_⟩
  · obtain ⟨kid, hkid, hp, ha, hb, hv, -⟩ := hK
    rw [tree_at_plug, tree_at_on]
    refine ⟨⟨⟨kid.setColor c', ?_, ?_⟩, hA.congr ?_, hB.congr ?_⟩, ?_⟩
    · rw [List.getElem?_modify_eq, hkid]
      rfl
    · simp [hp, ha, hb, hv]
    · exact fun j hj => hother j (hne hkA hj)
    · exact fun j hj => hother j (hne hkB hj)
    · rw [KeyTree.top_on] at hP ⊢
      exact hP.congr (fun j hj => hother j (hne (hTP hkT) hj))
  · intro j hj
    exact hother j (fun he => hj (Path.mem_keys_plug.mpr (Or.inl (he ▸ hkT))))

theorem set_color_child (h : TreeAt kids none (Path.plug p (.on d gc gk gv (.on e c k v a b) u)))
    (hn : (Path.plug p (.on d gc gk gv (.on e c k v a b) u)).keys.Nodup) (c' : Color) :
    ∃ kids', setColor kids (some k) c' = .ok kids' ∧
      Rearranged (Path.plug p (.on d gc gk gv (.on e c k v a b) u))
        (Path.plug p (.on d gc gk gv (.on e c' k v a b) u)) kids kids' :=
  set_color_spec (p := ⟨d, gc, gk, gv, u⟩ :: p) h hn c'

theorem set_color_sibling (h : TreeAt kids none (Path.plug p (.on d gc gk gv t (.on e c k v a b))))
    (hn : (Path.plug p (.on d gc gk gv t (.on e c k v a b))).keys.Nodup) (c' : Color) :
    ∃ kids', setColor kids (some k) c' = .ok kids' ∧
      Rearranged (Path.plug p (.on d gc gk gv t (.on e c k v a b)))
        (Path.plug p (.on d gc gk gv t (.on e c' k v a b))) kids kids' := by
  simp only [← KeyTree.on_other d] at h hn ⊢
  exact set_color_child h hn c'

/-- A red uncle: the colors of three kids change, and the loop goes on from gp. -/
theorem kid_fix_arm_recolor
    (h : TreeAt kids none (Path.plug p (.on d gc gk gv (.on e c fk fv t fs) u)))
    (hn : (Path.plug p (.on d gc gk gv (.on e c fk fv t fs) u)).keys.Nodup)
    (hu : u.isRed = true) (root x : Ptr) :
    ∃ kids', kidFixArm d kids root x (some fk) (some gk) = .ok (kids', root, some gk) ∧
      Rearranged (Path.plug p (.on d gc gk gv (.on e c fk fv t fs) u))
        (Path.plug p (.on d .red gk gv (.on e .black fk fv t fs) u.blacken)) kids kids' := by
  obtain ⟨hT, -⟩ := tree_at_plug.mp h
  obtain ⟨hG, -, hU⟩ := tree_at_on.mp hT
  obtain ⟨gkid, hg, -, -, hgu, -, -⟩ := hG.deref
  cases u with
  | nil => cases hu
  | node uc uk uv ul ur =>
    cases uc with
    | black => cases hu
    | red =>
      obtain ⟨ukid, hukid, -, -, -, -, huc⟩ := hU.1.deref
      obtain ⟨kids1, hrun1, h1⟩ := set_color_child h hn .black
      obtain ⟨kids2, hrun2, h2⟩ :=
        set_color_sibling (e := .left) h1.held (h1.keys ▸ hn) .black
      have h12 := h1.trans h2
      obtain ⟨kids3, hrun3, h3⟩ := set_color_spec h12.held (h12.keys ▸ hn) .red
      refine ⟨kids3, ?_, h12.trans h3⟩
      simp [kidFixArm, hg, hgu, KeyTree.top, hukid, huc, hrun1, hrun2, hrun3]

/-- No red uncle and no inner child: two colors change and gp goes down. -/
theorem kid_fix_arm_rotate
    (h : TreeAt kids none (Path.plug p (.on d gc gk gv (.on d c fk fv t fs) u)))
    (hn : (Path.plug p (.on d gc gk gv (.on d c fk fv t fs) u)).keys.Nodup)
    (hu : ¬ u.isRed = true) (hx : t.top = some x) :
    ∃ kids', kidFixArm d kids (Path.plug p (.on d gc gk gv (.on d c fk fv t fs) u)).top (some x)
        (some fk) (some gk) = .ok (kids',
          (Path.plug p (.on d .black fk fv t (.on d .red gk gv fs u))).top, some x) ∧
      Rearranged (Path.plug p (.on d gc gk gv (.on d c fk fv t fs) u))
        (Path.plug p (.on d .black fk fv t (.on d .red gk gv fs u))) kids kids' := by
  obtain ⟨hT, -⟩ := tree_at_plug.mp h
  obtain ⟨hG, hF, hU⟩ := tree_at_on.mp hT
  obtain ⟨gkid, hg, -, -, hgu, -, -⟩ := hG.deref
  obtain ⟨fkid, hf, -, -, hfs, -, -⟩ := (tree_at_on.mp hF).1.deref
  have hred : (if u.top.isSome then do pure ((← deref kids u.top).color == .red) else
      pure false : Res Bool) = .ok false := by
    cases u with
    | nil => rfl
    | node uc uk uv ul ur =>
      cases uc with
      | red => exact absurd rfl hu
      | black =>
        obtain ⟨ukid, hukid, -, -, -, -, huc⟩ := hU.1.deref
        simp [KeyTree.top, hukid, huc]
  have hinner : fs.top ≠ some x := by
    intro hs
    obtain ⟨hnT, -, -⟩ := Path.nodup_keys_plug.mp hn
    obtain ⟨-, -, hnF, -, -⟩ := KeyTree.nodup_keys_on.mp hnT
    obtain ⟨-, -, -, -, hts⟩ := KeyTree.nodup_keys_on.mp hnF
    exact hts (KeyTree.top_mem hx) (KeyTree.top_mem hs)
  obtain ⟨kids1, hrun1, h1⟩ := set_color_child h hn .black
  obtain ⟨kids2, hrun2, h2⟩ := set_color_spec h1.held (h1.keys ▸ hn) .red
  have h12 := h1.trans h2
  have hflip : KeyTree.on d .red gk gv (.on d .black fk fv t fs) u =
      .on d.other .red gk gv u (.on d.other .black fk fv fs t) := by
    rw [KeyTree.on_other, KeyTree.on_other]
  have hflip' : KeyTree.on d .black fk fv t (.on d .red gk gv fs u) =
      .on d.other .black fk fv (.on d.other .red gk gv u fs) t := by
    rw [KeyTree.on_other, KeyTree.on_other]
  rw [hflip] at h12
  obtain ⟨hrun3, h3⟩ := kid_rotate_rotated h12.held (h12.keys ▸ hn)
  have htop := Path.top_plug_congr p (t := .on d gc gk gv (.on d c fk fv t fs) u)
    (u := .on d.other .red gk gv u (.on d.other .black fk fv fs t))
    ((KeyTree.top_on ..).trans (KeyTree.top_on ..).symm)
  rw [← htop] at hrun3
  rw [hflip']
  refine ⟨_, ?_, h12.trans h3⟩
  unfold kidFixArm
  simp only [hg, ok_bind, hgu, hred, Bool.false_eq_true, ↓reduceIte, hf, hfs]
  simp [hinner.symm, hrun1, hrun2, hrun3]

/-- A black parent ends the loop. -/
theorem kid_fix_loop_black {f : Frame Nat PtrT} (h : TreeAt kids none (Path.plug (f :: p) t))
    (hf : f.color = .black) (hx : t.top = some x) (n : Nat) (root : Ptr) :
    kidFixLoop (n + 1) kids root (some x) = .ok (kids, root) := by
  obtain ⟨hT, hK, -⟩ := tree_at_plug.mp h
  obtain ⟨fkid, hfk, -, -, -, -, hfc⟩ := hK.deref
  cases t with
  | nil => cases hx
  | node tc tk tv tl tr =>
    cases hx
    obtain ⟨xkid, hxk, hxp, -⟩ := hT.1.deref
    unfold kidFixLoop
    split
    · rfl
    · simp [hxk, hxp, Path.above, hfk, hfc, hf]

/-- Under a red parent the loop goes into the arm for the parent's side. -/
theorem kid_fix_loop_red {f g : Frame Nat PtrT}
    (h : TreeAt kids none (Path.plug (f :: g :: p) t))
    (hn : (Path.plug (f :: g :: p) t).keys.Nodup) (hf : f.color = .red) (hx : t.top = some x)
    (n : Nat) : kidFixLoop (n + 1) kids (Path.plug (f :: g :: p) t).top (some x) = (do
      let (kids, root, p) ← kidFixArm g.dir kids (Path.plug (f :: g :: p) t).top (some x)
        (some f.key) (some g.key)
      kidFixLoop n kids root p) := by
  obtain ⟨-, hnP, hTP⟩ := Path.nodup_keys_plug.mp hn
  have hroot : some x ≠ (Path.plug (f :: g :: p) t).top :=
    fun he => hTP (KeyTree.top_mem hx) (Path.top_plug_mem he.symm)
  obtain ⟨hT, hF, -, hG, -⟩ := tree_at_plug.mp h
  obtain ⟨fkid, hfk, hfp, -, -, -, hfc⟩ := hF.deref
  obtain ⟨gkid, hgk, -, hgl, hgr, -, -⟩ := hG.deref
  have hside : (if some f.key = gkid.left then Dir.left else Dir.right) = g.dir := by
    have hfg : f.key ∉ g.sibling.keys := by
      obtain ⟨-, hfp, -⟩ := Path.nodup_keys_cons.mp hnP
      exact fun hm => hfp (Path.mem_keys_cons.mpr (Or.inr (Or.inl hm)))
    cases hd : g.dir with
    | left =>
      rw [hd] at hgl
      exact if_pos hgl.symm
    | right =>
      rw [hd] at hgr
      apply if_neg
      exact fun he => hfg (KeyTree.top_mem (hgr.symm.trans he.symm))
  cases t with
  | nil => cases hx
  | node tc tk tv tl tr =>
    cases hx
    obtain ⟨xkid, hxk, hxp, -⟩ := hT.1.deref
    rw [kidFixLoop, if_neg hroot]
    simp [hxk, hxp, Path.above, hfk, hfc, hf, hfp, hgk, hside]

/-- The loop goes up the path as settle does, in half as many rounds as the
path is long, and one more to stop. -/
theorem kid_fix_loop_spec {n : Nat} (h : TreeAt kids none (Path.plug p t))
    (hn : (Path.plug p t).keys.Nodup) (hx : t.top = some x) (hp : Path.Hole .black n p)
    (ho : Path.Outer p) {fuel : Nat} (hfuel : p.length + 2 ≤ fuel) :
    ∃ kids', kidFixLoop fuel kids (Path.plug p t).top (some x) =
        .ok (kids', (Path.settle p t).top) ∧
      Rearranged (Path.plug p t) (Path.settle p t) kids kids' := by
  induction p, t using Path.settle.induct generalizing kids x n fuel with
  | case1 f g p t hf =>
    obtain ⟨m, rfl⟩ : ∃ m, fuel = m + 1 := ⟨fuel - 1, by omega⟩
    rw [Path.settle, if_pos hf]
    exact ⟨kids, kid_fix_loop_black h hf hx m _, h, rfl, rfl, fun _ _ => rfl⟩
  | case2 f g p t hf hu ih =>
    obtain ⟨m, rfl⟩ : ∃ m, fuel = m + 1 := ⟨fuel - 1, by omega⟩
    have hred := Path.not_black hf
    rw [kid_fix_loop_red h hn hred hx, Path.settle, if_neg hf, if_pos hu]
    obtain ⟨kids1, hrun, h1⟩ := kid_fix_arm_recolor (p := p) h hn hu
      (Path.plug (f :: g :: p) t).top (some x)
    have htop : (Path.plug (f :: g :: p) t).top = (Path.plug p (.on g.dir .red g.key g.val
        (.on f.dir .black f.key f.val t f.sibling) g.sibling.blacken)).top :=
      Path.top_plug_congr p ((KeyTree.top_on ..).trans (KeyTree.top_on ..).symm)
    obtain ⟨m', hhole⟩ := hp.above_red hred
    have hm : p.length + 2 ≤ m := by
      simp only [List.length_cons] at hfuel
      omega
    obtain ⟨kids2, hrun2, h2⟩ := ih h1.held (h1.keys ▸ hn) (KeyTree.top_on ..) hhole
      (ho.above hf hu) hm
    rw [← htop] at hrun2
    rw [hrun]
    exact ⟨kids2, hrun2, h1.trans h2⟩
  | case3 f g p t hf hu =>
    obtain ⟨m, rfl⟩ : ∃ m, fuel = m + 1 + 1 := ⟨fuel - 2, by omega⟩
    have hred := Path.not_black hf
    have hd := ho.side hf hu
    rw [kid_fix_loop_red h hn hred hx, Path.settle, if_neg hf, if_neg hu]
    obtain ⟨fd, fc, fk, fv, fs⟩ := f
    cases hd
    obtain ⟨kids1, hrun, h1⟩ := kid_fix_arm_rotate (p := p) h hn hu hx
    have hstop := kid_fix_loop_black
      (f := ⟨g.dir, .black, fk, fv, .on g.dir .red g.key g.val fs g.sibling⟩) h1.held rfl hx m
    rw [Path.plug, Path.plug, hrun, ok_bind]
    exact ⟨kids1, hstop _, h1⟩
  | case4 p t hp' =>
    obtain ⟨m, rfl⟩ : ∃ m, fuel = m + 1 := ⟨fuel - 1, by omega⟩
    rw [Path.settle.eq_2 p t hp']
    refine ⟨kids, ?_, h, rfl, rfl, fun _ _ => rfl⟩
    cases p with
    | nil => simp [Path.plug, hx, kidFixLoop]
    | cons f p =>
      cases p with
      | nil => exact kid_fix_loop_black h hp.root_black hx m _
      | cons g p => exact absurd rfl (hp' f g p)

theorem kid_fix_spec {n : Nat} (h : TreeAt kids none (Path.plug p t))
    (hn : (Path.plug p t).keys.Nodup) (hx : t.top = some x) (hp : Path.Hole .black n p)
    (ho : Path.Outer p) {fuel : Nat} (hfuel : p.length + 2 ≤ fuel) :
    ∃ kids', kidFix fuel kids (Path.plug p t).top (some x) =
        .ok (kids', (Path.settle p t).blacken.top) ∧
      Rearranged (Path.plug p t) (Path.settle p t).blacken kids kids' := by
  obtain ⟨kids1, hrun, h1⟩ := kid_fix_loop_spec h hn hx hp ho hfuel
  have hmem : x ∈ (Path.settle p t).keys := by
    rw [h1.keys]
    exact Path.mem_keys_plug.mpr (Or.inl (KeyTree.top_mem hx))
  cases ht : Path.settle p t with
  | nil =>
    rw [ht] at hmem
    cases hmem
  | node c k v l r =>
    rw [ht] at hrun h1
    obtain ⟨kids2, hrun2, h2⟩ := set_color_spec (p := []) (d := .left) h1.held
      (h1.keys ▸ hn) .black
    refine ⟨kids2, ?_, h1.trans h2⟩
    rw [kidFix, hrun, ok_bind]
    simp only [KeyTree.top, hrun2, ok_bind, KeyTree.blacken, pure_ok]

end

end Mepl
