import Mepl.Base.Reach
import Mepl.Ptrset.Bst

namespace Mepl
open Base

namespace BstSet

/-- What do_bst_set_free and kid_free go from and to; the left ones are the
nodes, the right ones the kids. -/
inductive Points (s : BstSet) : Nat ⊕ Nat → Nat ⊕ Nat → Prop
  | kids {np k : Nat} {node : Node} (h : s.nodes[np]? = some node) (hk : node.kids = some k) :
      Points s (.inl np) (.inr k)
  | child {k j : Nat} {d : Dir} {kid : Kid} (h : s.kids[k]? = some kid)
      (hj : kid.child d = some j) : Points s (.inr k) (.inr j)
  | edge {k np : Nat} {kid : Kid} (h : s.kids[k]? = some kid) (hnp : kid.edge = some np) :
      Points s (.inr k) (.inl np)

def Live (s : BstSet) : Nat ⊕ Nat → Prop :=
  Reach (fun b => ∃ np, s.root = some np ∧ b = .inl np) s.Points

def sizeofKid : Nat := 40

def sizeof : Nat ⊕ Nat → Nat
  | .inl _ => sizeofNode
  | .inr _ => sizeofKid

/-- ps_bytes is the size of the set and of what its root leads to, which is all
there is. -/
structure BytesHeld (s : BstSet) : Prop where
  counted : SizeCounts s.Live sizeof sizeofBstSet s.psBytes
  nodes : ∀ np < s.nodes.length, s.Live (.inl np)
  kids : ∀ k < s.kids.length, s.Live (.inr k)

/-- What ps_bytes is. -/
def Bytes (s : BstSet) : Prop := s.psBytes = sizeofBstSet + sizeofNode * s.nodes.length

section
variable {s s' : BstSet} {npp : NodeSlot} {kpp : KidSlot} {kp : Ptr} {np k fuel : Nat} {c : PtrT}
  {cs : List PtrT} {adds : List Addr}

theorem new_held : BytesHeld bstSetNew := by
  have hnone : ∀ b, ¬ bstSetNew.Live b := by
    apply not_reach
    rintro b ⟨np, hr, -⟩
    cases hr
  refine ⟨size_counts_none hnone, ?_, ?_⟩
  · intro np hnp
    exact absurd hnp (Nat.not_lt_zero np)
  · intro k hk
    exact absurd hk (Nat.not_lt_zero k)

/-- With two nodes live, a kid is, since the root is one node only. -/
theorem live_kid (hnodes : ∀ np < 2, s.Live (.inl np)) : ∃ k, s.Live (.inr k) := by
  have hkid : ∀ np, s.Live (.inl np) → s.root = some np ∨ ∃ k, s.Live (.inr k) := by
    intro np hnp
    cases hnp with
    | root here =>
      obtain ⟨m, hr, he⟩ := here
      cases he
      exact Or.inl hr
    | step there next =>
      cases next with
      | edge h he => exact Or.inr ⟨_, there⟩
  rcases hkid 0 (hnodes 0 (by omega)) with h0 | hlive
  · rcases hkid 1 (hnodes 1 (by omega)) with h1 | hlive
    · rw [h0] at h1
      cases h1
    · exact hlive
  · exact hlive

theorem not_held (hb : Bytes s) (hlen : 2 ≤ s.nodes.length) : ¬ BytesHeld s := by
  intro hheld
  obtain ⟨k, hk⟩ := live_kid (fun np hnp => hheld.nodes np (Nat.lt_of_lt_of_le hnp hlen))
  have hlive : ∀ b ∈ (Finset.range s.nodes.length).disjSum {k}, s.Live b := by
    intro b hb
    cases b with
    | inl np => exact hheld.nodes np (by simpa using hb)
    | inr j =>
      obtain rfl : j = k := by simpa using hb
      exact hk
  have hle := hheld.counted.le hlive
  have hnode : ∀ np ∈ Finset.range s.nodes.length, sizeof (.inl np) = sizeofNode :=
    fun _ _ => rfl
  rw [Finset.sum_disjSum, Finset.sum_const_nat hnode, Finset.sum_singleton, Finset.card_range, hb,
    Nat.mul_comm] at hle
  simp only [sizeof, sizeofKid] at hle
  omega

theorem write_kid_bytes (h : s.writeKid kpp kp = .ok s') (hb : Bytes s) :
    s'.nodes.length = s.nodes.length ∧ Bytes s' := by
  cases kpp with
  | kids np =>
    simp only [writeKid, bind_ok] at h
    obtain ⟨node, -, nodes, hstore, hlast⟩ := h
    cases hlast
    have hlen := store_length hstore
    exact ⟨hlen, hb.trans (by rw [hlen])⟩
  | child d k =>
    simp only [writeKid, bind_ok] at h
    obtain ⟨kids, -, hlast⟩ := h
    cases hlast
    exact ⟨rfl, hb⟩

theorem set_new_bytes (h : s.setNew npp = .ok s') (hb : Bytes s) :
    s'.nodes.length = s.nodes.length + 1 ∧ Bytes s' := by
  have hlen : (nodeNew s).2.nodes.length = s.nodes.length + 1 := by simp [nodeNew]
  have hnew : Bytes (nodeNew s).2 := by
    simp only [Bytes, nodeNew, List.length_append, List.length_singleton, Nat.mul_succ] at hb ⊢
    omega
  cases npp with
  | root =>
    cases h
    exact ⟨hlen, hnew⟩
  | edge k =>
    simp only [setNew, writeNode, bind_ok] at h
    obtain ⟨kids, -, hlast⟩ := h
    cases hlast
    exact ⟨hlen, hnew⟩

/-- kid_get_or_set makes a kid without counting it. -/
theorem kid_get_or_set_bytes (h : kidGetOrSet fuel s np c = .ok (s', k)) (hb : Bytes s) :
    s'.nodes.length = s.nodes.length ∧ Bytes s' := by
  simp only [kidGetOrSet, bind_ok] at h
  obtain ⟨found, -, h⟩ := h
  cases found with
  | inl j =>
    cases h
    exact ⟨rfl, hb⟩
  | inr slot =>
    simp only [bind_ok] at h
    obtain ⟨s₁, hwrite, root, -, ⟨kids, root'⟩, -, s₂, hwrite₂, hlast⟩ := h
    cases hlast
    obtain ⟨hlen₁, hb₁⟩ := write_kid_bytes hwrite (by exact hb)
    obtain ⟨hlen₂, hb₂⟩ := write_kid_bytes hwrite₂ (by exact hb₁)
    exact ⟨hlen₂.trans hlen₁, hb₂⟩

/-- An add makes a node at least, and one more where it finds none. -/
theorem do_bst_set_add_bytes (h : doBstSetAdd fuel s npp cs = .ok s') (hb : Bytes s) :
    Bytes s' ∧ s.nodes.length < s'.nodes.length ∧
      (s.readNode npp = .ok none → cs ≠ [] → s.nodes.length + 2 ≤ s'.nodes.length) := by
  induction cs generalizing s npp with
  | nil =>
    obtain ⟨hlen, hb'⟩ := set_new_bytes h hb
    exact ⟨hb', by omega, fun _ hne => absurd rfl hne⟩
  | cons c cs ih =>
    simp only [doBstSetAdd, bind_ok] at h
    obtain ⟨p, hread, s₁, hensure, q, -, h⟩ := h
    cases q with
    | none => cases h
    | some np =>
      simp only [bind_ok] at h
      obtain ⟨⟨s₂, k⟩, hget, hrest⟩ := h
      simp only at hrest
      cases p with
      | none =>
        obtain ⟨hlen₁, hb₁⟩ := set_new_bytes hensure hb
        obtain ⟨hlen₂, hb₂⟩ := kid_get_or_set_bytes hget hb₁
        obtain ⟨hb', hlt, -⟩ := ih hrest hb₂
        exact ⟨hb', by omega, fun _ _ => by omega⟩
      | some p =>
        cases hensure
        obtain ⟨hlen₂, hb₂⟩ := kid_get_or_set_bytes hget hb
        obtain ⟨hb', hlt, -⟩ := ih hrest hb₂
        refine ⟨hb', by omega, fun hnone => ?_⟩
        rw [hread] at hnone
        cases hnone

theorem adds_bytes (h : adds.foldlM (bstSetAdd fuel) s = .ok s') (hb : Bytes s) :
    Bytes s' ∧ s.nodes.length ≤ s'.nodes.length := by
  induction adds generalizing s with
  | nil =>
    cases h
    exact ⟨hb, Nat.le_refl _⟩
  | cons a adds ih =>
    rw [List.foldlM_cons, bind_ok] at h
    obtain ⟨s₁, hadd, hrest⟩ := h
    obtain ⟨hb₁, hlt, -⟩ := do_bst_set_add_bytes hadd hb
    obtain ⟨hb', hle⟩ := ih hrest hb₁
    exact ⟨hb', by omega⟩

end

/-- No run with an add leaves ps_bytes right. -/
theorem adds_not_held {a : Addr} {adds : List Addr} {fuel : Nat} {s : BstSet}
    (hrun : bstSetRun fuel (a :: adds) = .ok s) : ¬ BytesHeld s := by
  rw [bstSetRun, List.foldlM_cons, bind_ok] at hrun
  obtain ⟨s₁, hadd, hrest⟩ := hrun
  obtain ⟨hb₁, -, htwo⟩ := do_bst_set_add_bytes hadd rfl
  have hne : a.1 ≠ [] := by
    intro he
    have hlen := a.2
    rw [he] at hlen
    cases hlen
  obtain ⟨hb, hle⟩ := adds_bytes hrest hb₁
  exact not_held hb (Nat.le_trans (htwo rfl hne) hle)

end BstSet

end Mepl
