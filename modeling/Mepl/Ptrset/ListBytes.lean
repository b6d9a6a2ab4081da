import Mepl.Base.Reach
import Mepl.Ptrset.ListRuns

namespace Mepl.ListSet
open Base

/-- What do_list_set_free goes from and to; the left ones are the nodes, the
right ones the kids. -/
inductive Points (s : ListSet) : Nat ⊕ Nat → Nat ⊕ Nat → Prop
  | kids {np k : Nat} (h : s.head np = some k) : Points s (.inl np) (.inr k)
  | next {k j : Nat} (h : s.next k = some (some j)) : Points s (.inr k) (.inr j)
  | edge {k np : Nat} (h : s.edge k = some np) : Points s (.inr k) (.inl np)

def Live (s : ListSet) : Nat ⊕ Nat → Prop :=
  Reach (fun b => ∃ np, s.root = some np ∧ b = .inl np) s.Points

def sizeof : Nat ⊕ Nat → Nat
  | .inl _ => sizeofNode
  | .inr _ => sizeofKid

/-- ps_bytes is the size of the set and of what its root leads to, which is all
there is. -/
structure BytesHeld (s : ListSet) : Prop where
  counted : SizeCounts s.Live sizeof sizeofListSet s.psBytes
  nodes : ∀ np < s.nodes.length, s.Live (.inl np)
  kids : ∀ k < s.kids.length, s.Live (.inr k)

/-- What ps_bytes is. -/
def Bytes (s : ListSet) : Prop :=
  s.psBytes = sizeofListSet + (sizeofNode * s.nodes.length + sizeofKid * s.kids.length)

/-- Every kid is in the list of some node. -/
def Placed (s : ListSet) (chain : Nat → List Nat) : Prop :=
  ∀ k < s.kids.length, ∃ np c, (s.trie chain).kid np c = some k

section
variable {s s' : ListSet} {chain chain' : Nat → List Nat} {np k : Nat} {npp : NodeSlot} {c : PtrT}
  {key : Nat → List PtrT} {u cs : List PtrT} {added : List Addr} {depth : Nat}

theorem Lists.find_mem (h : Lists s chain) (hk : k ∈ chain np) :
    (s.trie chain).kid np (s.chunk k) = some k := by
  have hinj : ∀ j ∈ chain np, s.chunk j = s.chunk k → j = k := by
    have hnodup : ((chain np).map s.chunk).Nodup :=
      List.pairwise_map.mpr ((h.sorted np).imp ne_of_lt)
    intro j hj he
    exact List.inj_on_of_nodup_map hnodup hj hk he
  cases hf : (chain np).find? (fun j => s.chunk j = s.chunk k) with
  | none =>
    rw [List.find?_eq_none] at hf
    have hne := hf k hk
    simp at hne
  | some j =>
    have hj := hinj j (List.mem_of_find?_eq_some hf) (by simpa using List.find?_some hf)
    exact hf.trans (congrArg some hj)

/-- What is live are the nodes that keys lead to, and their kids. -/
theorem Live.spec (h : Lists s chain) {b : Nat ⊕ Nat} (hb : s.Live b) :
    match b with
    | .inl np => (s.trie chain).Live np
    | .inr k => ∃ np, (s.trie chain).Live np ∧ k ∈ chain np := by
  induction hb with
  | root here =>
    obtain ⟨np, hr, rfl⟩ := here
    exact ⟨[], (Trie.node_nil _ _).trans hr⟩
  | step _ next ih =>
    cases next with
    | @kids np k hk =>
      exact ⟨np, ih, List.mem_of_head? ((h.held np).head.symm.trans hk)⟩
    | @next k j hj =>
      obtain ⟨np, hnp, hmem⟩ := ih
      refine ⟨np, hnp, ?_⟩
      obtain ⟨xs, ys, hsplit⟩ := List.append_of_mem hmem
      have hheld := h.held np
      rw [hsplit] at hheld
      cases hheld.suffix with
      | cons cell rest =>
        rw [hj] at cell
        cases cell
        have hys : j ∈ ys := List.mem_of_head? rest.head.symm
        rw [hsplit]
        exact List.mem_append_right _ (List.mem_cons_of_mem _ hys)
    | @edge k np hnp =>
      obtain ⟨m, ⟨u, hu⟩, hmem⟩ := ih
      refine ⟨u ++ [s.chunk k], ?_⟩
      rw [Trie.node_snoc, hu, Option.bind_some, h.find_mem hmem]
      exact hnp

theorem chain_live {p : Ptr} {ks : List Nat} (hchain : Chain s.next p ks)
    (hp : ∀ k, p = some k → s.Live (.inr k)) : ∀ k ∈ ks, s.Live (.inr k) := by
  induction hchain with
  | nil => exact fun k hk => absurd hk List.not_mem_nil
  | @cons k p ks cell rest ih =>
    have hk := hp k rfl
    intro j hj
    rcases List.mem_cons.mp hj with rfl | hj
    · exact hk
    · refine ih (fun q hq => ?_) j hj
      exact hk.step (.next (hq ▸ cell))

theorem live_kid (h : Lists s chain) (hnp : s.Live (.inl np)) (hk : k ∈ chain np) :
    s.Live (.inr k) :=
  chain_live (h.held np) (fun _ hj => hnp.step (.kids hj)) k hk

theorem live_node (h : Lists s chain) (hnp : (s.trie chain).Live np) : s.Live (.inl np) := by
  obtain ⟨u, hu⟩ := hnp
  induction u using List.reverseRecOn generalizing np with
  | nil => exact .root ⟨np, (Trie.node_nil _ _).symm.trans hu, rfl⟩
  | append_singleton u c ih =>
    rw [Trie.node_snoc] at hu
    obtain ⟨m, hm, hu⟩ := Option.bind_eq_some_iff.mp hu
    obtain ⟨k, hk, he⟩ := Option.bind_eq_some_iff.mp hu
    exact (live_kid h (ih hm) (List.mem_of_find?_eq_some hk)).step (.edge he)

/-- The counts after `*npp = node_new(lp)`. -/
theorem set_new_bytes (hrun : s.setNew npp = .ok s') (hb : Bytes s) :
    s'.nodes.length = s.nodes.length + 1 ∧ s'.kids.length = s.kids.length ∧ Bytes s' := by
  have hsame : ∀ {t : ListSet}, t.writeNode npp (some s.nodes.length) = .ok s' →
      s'.nodes = t.nodes ∧ s'.kids.length = t.kids.length ∧ s'.psBytes = t.psBytes := by
    intro t ht
    cases npp with
    | root =>
      cases ht
      exact ⟨rfl, rfl, rfl⟩
    | edge k =>
      simp only [writeNode, bind_ok] at ht
      obtain ⟨kid, -, kids, hstore, hlast⟩ := ht
      cases hlast
      exact ⟨rfl, store_length hstore, rfl⟩
  obtain ⟨hnodes, hkids, hbytes⟩ := hsame hrun
  have hlen : s'.nodes.length = s.nodes.length + 1 := by
    rw [hnodes, List.length_append, List.length_singleton]
  refine ⟨hlen, hkids, ?_⟩
  simp only [Bytes] at hb ⊢
  rw [hbytes, hlen, hkids, hb]
  simp only [Nat.mul_succ]
  omega

/-- The counts after kid_get_or_set: a kid found, or one more. -/
theorem kid_get_or_set_bytes (hrun : kidGetOrSet s np c = .ok (s', k)) (hb : Bytes s) :
    s'.nodes.length = s.nodes.length ∧ Bytes s' ∧ (s'.kids.length = s.kids.length ∨
      s'.kids.length = s.kids.length + 1 ∧ k = s.kids.length) := by
  simp only [kidGetOrSet, bind_ok] at hrun
  obtain ⟨found, -, hrun⟩ := hrun
  cases found with
  | inl j =>
    cases hrun
    exact ⟨rfl, hb, Or.inl rfl⟩
  | inr kpp =>
    simp only [bind_ok] at hrun
    obtain ⟨next, -, t, hwrite, hlast⟩ := hrun
    cases hlast
    have hsame : t.nodes.length = s.nodes.length ∧ t.kids.length = s.kids.length + 1 ∧
        t.psBytes = s.psBytes := by
      cases kpp with
      | kids m =>
        simp only [writeKid, bind_ok] at hwrite
        obtain ⟨_, -, nodes, hstore, hlast⟩ := hwrite
        cases hlast
        exact ⟨store_length hstore, by simp, rfl⟩
      | next j =>
        simp only [writeKid, bind_ok] at hwrite
        obtain ⟨kid, -, kids, hstore, hlast⟩ := hwrite
        cases hlast
        have hlen := store_length hstore
        rw [List.length_append, List.length_singleton] at hlen
        exact ⟨rfl, hlen, rfl⟩
    obtain ⟨hnodes, hkids, hbytes⟩ := hsame
    refine ⟨hnodes, ?_, Or.inr ⟨hkids, rfl⟩⟩
    simp only [Bytes] at hb ⊢
    rw [hbytes, hnodes, hkids, hb, Nat.mul_succ]
    omega

theorem ensure_grows (h : Lists s chain) (hv : s.Valid npp) (hok : (s.trie chain).Ok key)
    (ha : (s.trie chain).At (slotOf npp) u) (hu : u.length < depth) (hb : Bytes s)
    (hplaced : Placed s chain)
    (hrun : (if ((s.trie chain).read (slotOf npp)).isNone then s.setNew npp else pure s) =
      .ok s') :
    (s.trie chain).Grows s.nodes.length depth (s'.trie chain) s'.nodes.length ∧ Bytes s' ∧
      Placed s' chain := by
  cases hr : (s.trie chain).read (slotOf npp) with
  | some np =>
    rw [hr] at hrun
    cases hrun
    exact ⟨.same (fun _ => rfl), hb, hplaced⟩
  | none =>
    rw [hr] at hrun
    obtain ⟨s₁, hrun₁, -, -, htrie⟩ := set_new_spec h hv
    have hsame : s₁ = s' := Except.ok.inj (hrun₁.symm.trans hrun)
    subst hsame
    obtain ⟨hlen, hkids, hb'⟩ := set_new_bytes hrun₁ hb
    refine ⟨?_, hb', ?_⟩
    · rw [htrie, hlen]
      exact .attach hok ha (fresh_node h).blank hr hu
    · rw [Placed, hkids, htrie]
      exact hplaced

/-- The kid for a chunk is in the list of its node, and all the others stay
where they are. -/
theorem get_or_set_grows (hget : (s.trie chain).GetOrSet np c (s'.trie chain') k)
    (hkids : s'.kids.length = s.kids.length ∨
      s'.kids.length = s.kids.length + 1 ∧ k = s.kids.length) (hplaced : Placed s chain) :
    (∀ v, (s'.trie chain').node s'.root v = (s.trie chain).node s.root v) ∧
      Placed s' chain' := by
  have hpast : ∀ j < s'.kids.length, j < s.kids.length ∨ j = k := by omega
  generalize hs : s.trie chain = t at *
  generalize hs' : s'.trie chain' = t' at *
  have hroot : s.root = t.root := by
    rw [← hs]
    rfl
  have hroot' : s'.root = t'.root := by
    rw [← hs']
    rfl
  rw [Placed, hs] at hplaced
  rw [Placed, hs', hroot, hroot']
  cases hget with
  | there found =>
    refine ⟨fun v => rfl, fun j hj => ?_⟩
    rcases hpast j hj with hj | rfl
    · exact hplaced j hj
    · exact ⟨np, c, found⟩
  | new missing fresh =>
    refine ⟨fun v => Trie.insert_node fresh missing _ v, fun j hj => ?_⟩
    rcases hpast j hj with hj | rfl
    · obtain ⟨m, d, hm⟩ := hplaced j hj
      refine ⟨m, d, ?_⟩
      have hne : ¬ (m = np ∧ d = c) := by
        rintro ⟨rfl, rfl⟩
        rw [missing] at hm
        cases hm
      simpa [Trie.insert, hne] using hm
    · exact ⟨np, c, by simp [Trie.insert]⟩

/-- An add extends the trie by its address. -/
theorem do_list_set_add_extends (cs : List PtrT) (h : Lists s chain) (hv : s.Valid npp)
    (hok : (s.trie chain).Ok key) (ha : (s.trie chain).At (slotOf npp) u) (hb : Bytes s)
    (hplaced : Placed s chain) :
    ∃ s' chain', doListSetAdd s npp cs = .ok s' ∧ Lists s' chain' ∧ Bytes s' ∧
      Placed s' chain' ∧
      (s.trie chain).Extends s.nodes.length (u ++ cs) (s'.trie chain') s'.nodes.length := by
  induction cs generalizing s chain npp key u with
  | nil =>
    obtain ⟨s', hrun, h', -, htrie⟩ := set_new_spec h hv
    obtain ⟨hlen, hkids, hb'⟩ := set_new_bytes hrun hb
    refine ⟨s', chain, hrun, h', hb', ?_, ?_⟩
    · rw [Placed, hkids, htrie]
      exact hplaced
    · rw [htrie, hlen, List.append_nil]
      exact .attach hok ha (fresh_node h).blank
  | cons c cs ih =>
    obtain ⟨s₁, np, hrun₁, h₁, hensure, hread, hnp⟩ := ensure_node h hv
    obtain ⟨key₁, hok₁, hnode₁, -⟩ := hensure.spec hok ha
    have hlt : u.length < (u ++ c :: cs).length := by simp
    obtain ⟨hgrow₁, hb₁, hplaced₁⟩ := ensure_grows h hv hok ha hlt hb hplaced hrun₁
    obtain ⟨s₂, chain₂, k, hrun₂, h₂, hget, hk⟩ := kid_get_or_set_spec h₁ hnp c
    obtain ⟨hok₂, ha₂, -⟩ := hget.spec hok₁ hnode₁
    obtain ⟨hlen₂, hb₂, hkids₂⟩ := kid_get_or_set_bytes hrun₂ hb₁
    obtain ⟨hsame, hplaced₂⟩ := get_or_set_grows hget hkids₂ hplaced₁
    obtain ⟨s₃, chain₃, hrun₃, h₃, hb₃, hplaced₃, hext⟩ := ih h₂ hk hok₂ ha₂ hb₂ hplaced₂
    refine ⟨s₃, chain₃, ?_, h₃, hb₃, hplaced₃, ?_⟩
    · rw [doListSetAdd, read_node chain hv, ok_bind, hrun₁]
      simp only [ok_bind, hread, hrun₂, hrun₃]
    · rw [hlen₂, List.append_assoc, List.singleton_append] at hext
      exact (hgrow₁.trans (.same hsame)).extends hext

/-- What a run keeps: ps_bytes, and a trie that the addresses made. -/
def RunBytes (s : ListSet) (added : List Addr) : Prop :=
  ∃ chain key, Lists s chain ∧ (s.trie chain).Ok key ∧ Bytes s ∧ Placed s chain ∧
    (s.trie chain).Keeps s.nodes.length ADDR_LEN (added.map Subtype.val)

theorem RunBytes.new : RunBytes listSetNew [] := by
  obtain ⟨chain, key, hlists, hok, -⟩ := run_inv_new
  refine ⟨chain, key, hlists, hok, rfl, ?_, Trie.keeps_nil rfl⟩
  intro k hk
  exact absurd hk (Nat.not_lt_zero k)

theorem RunBytes.add (h : RunBytes s added) (a : Addr) :
    ∃ s', listSetAdd s a = .ok s' ∧ RunBytes s' (added ++ [a]) := by
  obtain ⟨chain, key, hlists, hok, hb, hplaced, hkeeps⟩ := h
  have hv : s.Valid .root := trivial
  obtain ⟨s', chain', hrun, hlists', hb', hplaced', hext⟩ :=
    do_list_set_add_extends a.1 hlists hv hok rfl hb hplaced
  obtain ⟨key', hok'⟩ := hext.ok
  refine ⟨s', hrun, chain', key', hlists', hok', hb', hplaced', ?_⟩
  rw [List.map_append]
  exact hkeeps.extend hext a.2

theorem RunBytes.held_iff (h : RunBytes s added) : BytesHeld s ↔ added.Nodup := by
  obtain ⟨chain, key, hlists, hok, hb, hplaced, hkeeps⟩ := h
  have hlive : (∀ np < s.nodes.length, s.Live (.inl np)) ↔ added.Nodup := by
    rw [← List.nodup_map_iff Subtype.val_injective, ← hkeeps.live]
    exact ⟨fun hall np hnp => (hall np hnp).spec hlists,
      fun hall np hnp => live_node hlists (hall np hnp)⟩
  refine ⟨fun hheld => hlive.mp hheld.nodes, fun hnodup => ?_⟩
  have hnodes := hlive.mpr hnodup
  have hkids : ∀ k < s.kids.length, s.Live (.inr k) := by
    intro k hk
    obtain ⟨np, c, hkid⟩ := hplaced k hk
    have hmem : k ∈ chain np := List.mem_of_find?_eq_some hkid
    have hnp : np < s.nodes.length := by
      by_contra hge
      rw [hlists.absent (Nat.le_of_not_lt hge)] at hmem
      cases hmem
    exact live_kid hlists (hnodes np hnp) hmem
  refine ⟨?_, hnodes, hkids⟩
  have hbytes : s.psBytes = sizeofListSet +
      (sizeofNode * s.nodes.length + sizeofKid * s.kids.length) := hb
  rw [hbytes]
  apply size_counts_two
  · refine fun np => ⟨fun hnp => ?_, hnodes np⟩
    obtain ⟨v, hv⟩ := hnp.spec hlists
    exact (hkeeps.bound v np hv).1
  · refine fun k => ⟨fun hk => ?_, hkids k⟩
    obtain ⟨np, -, hmem⟩ := hk.spec hlists
    exact hlists.lt hmem
  · exact fun _ _ => rfl
  · exact fun _ _ => rfl

end

def listSetAdds (adds : List Addr) : Res ListSet := adds.foldlM listSetAdd listSetNew

end Mepl.ListSet
