import Mepl.Base.Reach
import Mepl.Ptrset.Fixset

namespace Mepl
open Base

namespace Fixset

/-- do_fixset_free comes to the node. -/
def Live (s : Fixset) : Nat → Prop :=
  Reach (fun np => s.root = some np)
    (fun m np => ∃ node c, s.nodes[m]? = some node ∧ node.kids c = some np)

/-- ps_bytes is the size of the set and of what its root leads to, which is all
there is. -/
structure BytesHeld (s : Fixset) : Prop where
  counted : SizeCounts s.Live (fun _ => sizeofNode) sizeofFixset s.psBytes
  nodes : ∀ np < s.nodes.length, s.Live np

/-- What ps_bytes is. -/
def Bytes (s : Fixset) : Prop := s.psBytes = sizeofFixset + sizeofNode * s.nodes.length

section
variable {s s' : Fixset} {npp : NodeSlot} {key : Nat → List PtrT} {u cs : List PtrT}
  {added : List Addr} {depth : Nat}

theorem live_iff (s : Fixset) (np : Nat) : s.Live np ↔ s.trie.Live np := by
  have hpoints : (fun m np => ∃ node c, s.nodes[m]? = some node ∧ node.kids c = some np) =
      (fun m np => ∃ c k, s.trie.kid m c = some k ∧ s.trie.edge k = some np) := by
    funext m np
    apply propext
    constructor
    · rintro ⟨node, c, hnode, hkid⟩
      exact ⟨c, (m, c), rfl, by simp [trie, kid, hnode, hkid]⟩
    · rintro ⟨c, k, hk, he⟩
      cases hk
      obtain ⟨node, hnode, hkid⟩ := Option.bind_eq_some_iff.mp he
      exact ⟨node, c, hnode, hkid⟩
  rw [Trie.live_iff_reach, Live, hpoints]
  rfl

theorem set_new_bytes (hrun : s.setNew npp = .ok s') (hb : Bytes s) :
    s'.nodes.length = s.nodes.length + 1 ∧ Bytes s' := by
  have hsame : ∀ {t : Fixset}, t.writeNode npp (some s.nodes.length) = .ok s' →
      s'.nodes.length = t.nodes.length ∧ s'.psBytes = t.psBytes := by
    intro t ht
    cases npp with
    | root =>
      cases ht
      exact ⟨rfl, rfl⟩
    | kid n c =>
      simp only [writeNode, bind_ok] at ht
      obtain ⟨node, -, nodes, hstore, hlast⟩ := ht
      cases hlast
      exact ⟨store_length hstore, rfl⟩
  obtain ⟨hlen, hbytes⟩ := hsame hrun
  rw [List.length_append, List.length_singleton] at hlen
  refine ⟨hlen, ?_⟩
  rw [Bytes, hbytes, hlen, Nat.mul_succ, ← Nat.add_assoc, ← hb]

/-- The node at a slot, made where there is none, is one more if it is made. -/
theorem ensure_grows (h : Linked s) (hv : s.Valid npp) (hok : s.trie.Ok key)
    (ha : s.trie.At (slotOf npp) u) (hu : u.length < depth) (hb : Bytes s)
    (hrun : (if (s.trie.read (slotOf npp)).isNone then s.setNew npp else pure s) = .ok s') :
    s.trie.Grows s.nodes.length depth s'.trie s'.nodes.length ∧ Bytes s' := by
  cases hr : s.trie.read (slotOf npp) with
  | some np =>
    rw [hr] at hrun
    cases hrun
    exact ⟨.same (fun _ => rfl), hb⟩
  | none =>
    rw [hr] at hrun
    obtain ⟨s₁, hrun₁, -, -, htrie⟩ := set_new_spec h hv
    have hsame : s₁ = s' := Except.ok.inj (hrun₁.symm.trans hrun)
    subst hsame
    obtain ⟨hlen, hb'⟩ := set_new_bytes hrun₁ hb
    rw [htrie, hlen]
    exact ⟨.attach hok ha (blank_node h) hr hu, hb'⟩

/-- An add extends the trie by its address. -/
theorem do_fixset_add_extends (cs : List PtrT) (h : Linked s) (hv : s.Valid npp)
    (hok : s.trie.Ok key) (ha : s.trie.At (slotOf npp) u) (hb : Bytes s) :
    ∃ s', doFixsetAdd s npp cs = .ok s' ∧ Linked s' ∧ Bytes s' ∧
      s.trie.Extends s.nodes.length (u ++ cs) s'.trie s'.nodes.length := by
  induction cs generalizing s npp key u with
  | nil =>
    obtain ⟨s', hrun, h', -, htrie⟩ := set_new_spec h hv
    obtain ⟨hlen, hb'⟩ := set_new_bytes hrun hb
    refine ⟨s', hrun, h', hb', ?_⟩
    rw [htrie, hlen, List.append_nil]
    exact .attach hok ha (blank_node h)
  | cons c cs ih =>
    obtain ⟨s₁, key₁, np, hrun₁, h₁, hok₁, hread₁, hnp, hnode, -⟩ := ensure_node h hv hok ha
    have hlt : u.length < (u ++ c :: cs).length := by simp
    obtain ⟨hgrow, hb₁⟩ := ensure_grows h hv hok ha hlt hb hrun₁
    have hv₁ : s₁.Valid (.kid np c) := hnp
    have ha₁ : s₁.trie.At (slotOf (.kid np c)) (u ++ [c]) := ⟨u, c, np, rfl, hnode, rfl⟩
    obtain ⟨s₂, hrun₂, h₂, hb₂, hext⟩ := ih h₁ hv₁ hok₁ ha₁ hb₁
    refine ⟨s₂, ?_, h₂, hb₂, hgrow.extends ?_⟩
    · rw [doFixsetAdd, read_node hv, ok_bind, hrun₁]
      simp only [ok_bind, hread₁, hrun₂]
    · simpa using hext

/-- What a run keeps: ps_bytes, and a trie that the addresses made. -/
def RunBytes (s : Fixset) (added : List Addr) : Prop :=
  Linked s ∧ (∃ key, s.trie.Ok key) ∧ Bytes s ∧
    s.trie.Keeps s.nodes.length ADDR_LEN (added.map Subtype.val)

theorem RunBytes.new : RunBytes fixsetNew [] := by
  obtain ⟨hlinked, hok, -⟩ := run_inv_new
  exact ⟨hlinked, hok, rfl, Trie.keeps_nil rfl⟩

theorem RunBytes.add (h : RunBytes s added) (a : Addr) :
    ∃ s', fixsetAdd s a = .ok s' ∧ RunBytes s' (added ++ [a]) := by
  obtain ⟨hlinked, ⟨key, hok⟩, hb, hkeeps⟩ := h
  have hv : s.Valid .root := trivial
  obtain ⟨s', hrun, hlinked', hb', hext⟩ := do_fixset_add_extends a.1 hlinked hv hok rfl hb
  refine ⟨s', hrun, hlinked', hext.ok, hb', ?_⟩
  rw [List.map_append]
  exact hkeeps.extend hext a.2

theorem RunBytes.held_iff (h : RunBytes s added) : BytesHeld s ↔ added.Nodup := by
  obtain ⟨-, -, hb, hkeeps⟩ := h
  have hlive : (∀ np < s.nodes.length, s.Live np) ↔ added.Nodup := by
    simp only [live_iff]
    rw [hkeeps.live, List.nodup_map_iff Subtype.val_injective]
  refine ⟨fun hheld => hlive.mp hheld.nodes, fun hnodup => ⟨?_, hlive.mpr hnodup⟩⟩
  refine ⟨Finset.range s.nodes.length, fun np => ?_, ?_⟩
  · rw [Finset.mem_range]
    refine ⟨hlive.mpr hnodup np, fun hnp => ?_⟩
    obtain ⟨v, hv⟩ := (live_iff s np).mp hnp
    exact (hkeeps.bound v np hv).1
  · rw [Finset.sum_const_nat (fun _ _ => rfl), Finset.card_range, Nat.mul_comm]
    exact hb

end

end Fixset

end Mepl
