import Mepl.Base.Trie
import Mepl.Ptrset.Bst

namespace Mepl
open Base

/-- A kid for every chunk: FIXSET_SIZE is the number of chunks there are. -/
structure Fixset.Node where
  kids : PtrT → Ptr

/-- The set, with every node allocated for it. -/
structure Fixset where
  psBytes : Nat
  root : Ptr
  nodes : List Fixset.Node

namespace Fixset

def sizeofFixset : Nat := 40

def sizeofNode : Nat := 8 * 2 ^ 16

def fixsetNew : Fixset where
  psBytes := sizeofFixset
  root := none
  nodes := []

/-- do_fixset_has -/
def doFixsetHas (s : Fixset) : Ptr → List PtrT → Res Bool
  | _, [] => pure true
  | none, _ :: _ => pure false
  | some np, c :: cs => do
    let node ← load s.nodes np
    doFixsetHas s (node.kids c) cs

def fixsetHas (s : Fixset) (a : Addr) : Res Bool := doFixsetHas s s.root a.1

/-- What a `struct node **` points to. -/
inductive NodeSlot where
  | root
  | kid (np : Nat) (c : PtrT)
deriving DecidableEq, Repr

def readNode (s : Fixset) : NodeSlot → Res Ptr
  | .root => pure s.root
  | .kid np c => do pure ((← load s.nodes np).kids c)

def writeNode (s : Fixset) (npp : NodeSlot) (np : Ptr) : Res Fixset :=
  match npp with
  | .root => pure { s with root := np }
  | .kid n c => do
    let node ← load s.nodes n
    let nodes ← store s.nodes n ⟨Function.update node.kids c np⟩
    pure { s with nodes := nodes }

def nodeNew (s : Fixset) : Nat × Fixset :=
  (s.nodes.length,
    { s with nodes := s.nodes ++ [⟨fun _ => none⟩], psBytes := s.psBytes + sizeofNode })

/-- `*npp = node_new(fp)` -/
def setNew (s : Fixset) (npp : NodeSlot) : Res Fixset :=
  let (np, s) := nodeNew s
  s.writeNode npp (some np)

/-- do_fixset_add; the node that ends an address is always a new one. -/
def doFixsetAdd : Fixset → NodeSlot → List PtrT → Res Fixset
  | s, npp, [] => s.setNew npp
  | s, npp, c :: cs => do
    let s ← (if (← s.readNode npp).isNone then s.setNew npp else pure s)
    match ← s.readNode npp with
    | none => .error .fault
    | some np => doFixsetAdd s (.kid np c) cs

def fixsetAdd (s : Fixset) (a : Addr) : Res Fixset := doFixsetAdd s .root a.1

/-- A run: fixset_new, then the adds. -/
def fixsetRun (adds : List Addr) : Res Fixset := adds.foldlM fixsetAdd fixsetNew

/-- What is in the slot (np, c). -/
def kid (s : Fixset) (k : Nat × PtrT) : Ptr := (s.nodes[k.1]?).bind (fun node => node.kids k.2)

/-- Every slot of a node is a kid of it. -/
def trie (s : Fixset) : Trie Nat (Nat × PtrT) PtrT where
  root := s.root
  kid := fun np c => some (np, c)
  edge := s.kid

def slotOf : NodeSlot → Trie.Slot (Nat × PtrT)
  | .root => .root
  | .kid np c => .edge (np, c)

/-- A slot that can be read and written. -/
def Valid (s : Fixset) : NodeSlot → Prop
  | .root => True
  | .kid np _ => np < s.nodes.length

/-- Every pointer to a node leads to one. -/
structure Linked (s : Fixset) : Prop where
  root : ∀ np, s.root = some np → np < s.nodes.length
  kids : ∀ k np, s.kid k = some np → np < s.nodes.length

section
variable {s s' : Fixset} {npp : NodeSlot} {key : Nat → List PtrT} {u cs : List PtrT} {np : Nat}

theorem read_node (hv : s.Valid npp) : s.readNode npp = .ok (s.trie.read (slotOf npp)) := by
  cases npp with
  | root => rfl
  | kid np c =>
    have hnp : np < s.nodes.length := hv
    simp [readNode, load_lt hnp, slotOf, Trie.read, trie, kid, hnp]

theorem write_node (hv : s.Valid npp) (np : Nat) : ∃ s', s.writeNode npp (some np) = .ok s' ∧
    s'.nodes.length = s.nodes.length ∧ s'.trie = s.trie.attach (slotOf npp) np := by
  cases npp with
  | root => exact ⟨_, rfl, rfl, rfl⟩
  | kid n c =>
    have hn : n < s.nodes.length := hv
    refine ⟨{ s with nodes := s.nodes.set n ⟨Function.update s.nodes[n].kids c (some np)⟩ }, ?_,
      List.length_set, ?_⟩
    · simp [writeNode, load_lt hn, store_lt hn]
    · have hedge : ∀ k : Nat × PtrT,
          ((s.nodes.set n ⟨Function.update s.nodes[n].kids c (some np)⟩)[k.1]?).bind
            (fun node => node.kids k.2) = if k = (n, c) then some np else s.kid k := by
        intro k
        obtain ⟨m, d⟩ := k
        by_cases hm : m = n
        · subst hm
          by_cases hd : d = c <;> simp [hn, hd, kid]
        · simp [hm, Ne.symm hm, kid]
      simp only [trie, slotOf, Trie.attach, Trie.mk.injEq, true_and]
      exact funext hedge

theorem node_new_kid (s : Fixset) : (nodeNew s).2.kid = s.kid := by
  funext k
  simp only [nodeNew, kid, List.getElem?_append]
  split
  · rfl
  · rename_i hge
    rw [List.getElem?_eq_none (Nat.le_of_not_lt hge)]
    cases k.1 - s.nodes.length <;> rfl

theorem Linked.read_lt (h : Linked s) (hr : s.trie.read (slotOf npp) = some np) :
    np < s.nodes.length := by
  cases npp with
  | root => exact h.root np hr
  | kid n c => exact h.kids (n, c) np hr

theorem Linked.attach (h : Linked s) (hlen : s.nodes.length < s'.nodes.length)
    (ht : s'.trie = s.trie.attach (slotOf npp) s.nodes.length) : Linked s' := by
  have hroot : s'.root = (s.trie.attach (slotOf npp) s.nodes.length).root := congrArg Trie.root ht
  have hkids : s'.kid = (s.trie.attach (slotOf npp) s.nodes.length).edge := congrArg Trie.edge ht
  constructor
  · intro m hm
    rw [hroot] at hm
    cases npp with
    | root =>
      cases hm
      exact hlen
    | kid n c => exact Nat.lt_trans (h.root m hm) hlen
  · intro k m hm
    rw [hkids] at hm
    cases npp with
    | root => exact Nat.lt_trans (h.kids k m hm) hlen
    | kid n c =>
      simp only [slotOf, Trie.attach] at hm
      split at hm
      · cases hm
        exact hlen
      · exact Nat.lt_trans (h.kids k m hm) hlen

theorem blank_node (h : Linked s) : s.trie.Blank s.nodes.length where
  kids := by
    intro c k hk
    cases hk
    simp [trie, kid]
  root := fun hr => Nat.lt_irrefl _ (h.root _ hr)
  edge := fun _ he => Nat.lt_irrefl _ (h.kids _ _ he)

/-- `*npp = node_new(fp)` hangs up a blank node. -/
theorem set_new_spec (h : Linked s) (hv : s.Valid npp) : ∃ s', s.setNew npp = .ok s' ∧ Linked s' ∧
    s.nodes.length < s'.nodes.length ∧ s'.trie = s.trie.attach (slotOf npp) s.nodes.length := by
  have hlen : (nodeNew s).2.nodes.length = s.nodes.length + 1 := by simp [nodeNew]
  have hv' : (nodeNew s).2.Valid npp := by
    cases npp with
    | root => trivial
    | kid n c =>
      have hn : n < s.nodes.length := hv
      exact Nat.lt_of_lt_of_eq (Nat.lt_succ_of_lt hn) hlen.symm
  obtain ⟨s', hrun, hlen', ht⟩ := write_node hv' s.nodes.length
  have htrie : (nodeNew s).2.trie = s.trie := by
    rw [trie, node_new_kid]
    rfl
  rw [htrie] at ht
  have hlt : s.nodes.length < s'.nodes.length := by omega
  exact ⟨s', hrun, h.attach hlt ht, hlt, ht⟩

/-- fixset_has asks for a node below all chunks but the last. -/
theorem do_fixset_has_spec (h : Linked s) (cs : List PtrT) (c : PtrT) (kp : Ptr)
    (hkp : ∀ np, kp = some np → np < s.nodes.length) :
    doFixsetHas s kp (cs ++ [c]) = .ok (s.trie.node kp cs).isSome := by
  induction cs generalizing kp with
  | nil =>
    cases kp with
    | none => rfl
    | some np =>
      have hnp := hkp np rfl
      simp [doFixsetHas, load_lt hnp, Trie.node]
  | cons d cs ih =>
    cases kp with
    | none => rfl
    | some np =>
      have hnp := hkp np rfl
      have hkid : s.kid (np, d) = s.nodes[np].kids d := by simp [kid, hnp]
      rw [List.cons_append, doFixsetHas, load_lt hnp, ok_bind, ← hkid]
      exact ih _ (fun m hm => h.kids (np, d) m hm)

/-- A prefix of u ++ c :: cs that goes at least to u stops there or goes on. -/
theorem prefix_cons_iff {v : List PtrT} {c : PtrT} : u <+: v ∧ v <+: u ++ c :: cs ↔
    v = u ∨ u ++ [c] <+: v ∧ v <+: u ++ [c] ++ cs := by
  rw [List.append_assoc, List.singleton_append]
  constructor
  · intro hin
    obtain ⟨⟨x, rfl⟩, hv⟩ := hin
    cases x with
    | nil => exact Or.inl (List.append_nil u)
    | cons d x =>
      right
      refine ⟨?_, hv⟩
      rw [List.prefix_append_right_inj, List.cons_prefix_cons] at hv
      rw [List.prefix_append_right_inj, List.cons_prefix_cons]
      exact ⟨hv.1.symm, List.nil_prefix⟩
  · intro hin
    rcases hin with rfl | ⟨hu, hv⟩
    · exact ⟨List.prefix_rfl, List.prefix_append _ _⟩
    · exact ⟨(List.prefix_append _ _).trans hu, hv⟩

/-- The node at a slot, made where there is none. -/
theorem ensure_node (h : Linked s) (hv : s.Valid npp) (hok : s.trie.Ok key)
    (ha : s.trie.At (slotOf npp) u) : ∃ s1 key1 np,
      (if (s.trie.read (slotOf npp)).isNone then s.setNew npp else pure s) = .ok s1 ∧
      Linked s1 ∧ s1.trie.Ok key1 ∧ s1.readNode npp = .ok (some np) ∧ np < s1.nodes.length ∧
      s1.trie.node s1.root u = some np ∧ ∀ v, (s1.trie.node s1.root v).isSome = true ↔
        (s.trie.node s.root v).isSome = true ∨ v = u := by
  cases hr : s.trie.read (slotOf npp) with
  | some np =>
    have hnode := ha.node.trans hr
    refine ⟨s, key, np, rfl, h, hok, by rw [read_node hv, hr], h.read_lt hr, hnode, fun v => ?_⟩
    constructor
    · exact Or.inl
    · intro hin
      rcases hin with hin | rfl
      · exact hin
      · exact Option.isSome_iff_exists.mpr ⟨np, hnode⟩
  | none =>
    obtain ⟨s1, hrun, h1, hlen, ht⟩ := set_new_spec h hv
    have hv1 : s1.Valid npp := by
      cases npp with
      | root => trivial
      | kid n c => exact Nat.lt_trans hv hlen
    have hnode := Trie.attach_node_self (m := s.nodes.length) hok ha
    have hnull := Trie.attach_node_null hok ha (blank_node h) hr
    rw [← ht] at hnode hnull
    refine ⟨s1, _, s.nodes.length, hrun, h1, ht ▸ Trie.attach_ok hok ha (blank_node h), ?_, hlen,
      hnode, hnull⟩
    rw [read_node hv1, ht, Trie.read_attach]

/-- An add leads the keys on its way somewhere, and no others. -/
theorem do_fixset_add_spec (cs : List PtrT) (h : Linked s) (hv : s.Valid npp)
    (hok : s.trie.Ok key) (ha : s.trie.At (slotOf npp) u) :
    ∃ s' key', doFixsetAdd s npp cs = .ok s' ∧ Linked s' ∧ s'.trie.Ok key' ∧
      ∀ v, v.length ≤ u.length + cs.length → ((s'.trie.node s'.root v).isSome = true ↔
        (s.trie.node s.root v).isSome = true ∨ u <+: v ∧ v <+: u ++ cs) := by
  induction cs generalizing s npp key u with
  | nil =>
    obtain ⟨s', hrun, h', -, ht⟩ := set_new_spec h hv
    refine ⟨s', _, hrun, h', ht ▸ Trie.attach_ok hok ha (blank_node h), fun v hlen => ?_⟩
    have hshort := Trie.attach_node_short (m := s.nodes.length) hok ha hlen
    rw [← ht] at hshort
    rw [List.append_nil]
    refine hshort.trans (or_congr_right ⟨?_, ?_⟩)
    · intro he
      exact ⟨he ▸ List.prefix_rfl, he ▸ List.prefix_rfl⟩
    · intro he
      exact List.IsPrefix.eq_of_length_le he.2 (he.1.length_le)
  | cons c cs ih =>
    obtain ⟨s1, key1, np, hrun1, h1, hok1, hread1, hnp, hnode, hnode1⟩ := ensure_node h hv hok ha
    have hv1 : s1.Valid (.kid np c) := hnp
    have ha1 : s1.trie.At (slotOf (.kid np c)) (u ++ [c]) := ⟨u, c, np, rfl, hnode, rfl⟩
    obtain ⟨s2, key2, hrun2, h2, hok2, hnode2⟩ := ih h1 hv1 hok1 ha1
    refine ⟨s2, key2, ?_, h2, hok2, fun v hlen => ?_⟩
    · rw [doFixsetAdd, read_node hv, ok_bind, hrun1]
      simp only [ok_bind, hread1, hrun2]
    · rw [hnode2 v (by simp at hlen ⊢; omega), hnode1 v, prefix_cons_iff, or_assoc]

end

/-- What a run keeps: the trie leads the prefixes of the addresses added
somewhere, and no other chunks. -/
def RunInv (s : Fixset) (added : List Addr) : Prop :=
  Linked s ∧ (∃ key, s.trie.Ok key) ∧ ∀ v, v.length ≤ ADDR_LEN →
    ((s.trie.node s.root v).isSome = true ↔ ∃ b ∈ added, v <+: b.1)

section
variable {s : Fixset} {added : List Addr}

theorem run_inv_new : RunInv fixsetNew [] := by
  refine ⟨⟨by simp [fixsetNew], by simp [fixsetNew, kid]⟩, ⟨fun _ => [], ?_⟩, fun v _ => ?_⟩
  · constructor
    · simp [trie, fixsetNew]
    · simp [trie, fixsetNew, kid]
    · intro n c n' c' k hk hk'
      cases hk
      cases hk'
      exact ⟨rfl, rfl⟩
  · simp [fixsetNew, Trie.node_none]

theorem RunInv.add (h : RunInv s added) (a : Addr) :
    ∃ s', fixsetAdd s a = .ok s' ∧ RunInv s' (added ++ [a]) := by
  obtain ⟨hlinked, ⟨key, hok⟩, hnode⟩ := h
  have hv : s.Valid .root := trivial
  obtain ⟨s', key', hrun, h', hok', hnode'⟩ := do_fixset_add_spec a.1 hlinked hv hok rfl
  refine ⟨s', hrun, h', ⟨key', hok'⟩, fun v hlen => ?_⟩
  have hv' : v.length ≤ ([] : List PtrT).length + a.1.length := by
    rw [a.2]
    simpa using hlen
  rw [hnode' v hv', hnode v hlen]
  simp only [List.nil_append, List.nil_prefix, true_and, List.mem_append, List.mem_singleton,
    or_and_right, exists_or, exists_eq_left]

/-- fixset_has does not look at what the last chunk leads to. -/
theorem RunInv.has (h : RunInv s added) (a : Addr) :
    fixsetHas s a = .ok (decide (∃ b ∈ added, a.1.dropLast = b.1.dropLast)) := by
  obtain ⟨hlinked, -, hnode⟩ := h
  have hlen := a.2
  have hne : a.1 ≠ [] := by
    intro he
    rw [he] at hlen
    cases hlen
  have hhas := do_fixset_has_spec hlinked a.1.dropLast (a.1.getLast hne) s.root hlinked.root
  rw [List.dropLast_append_getLast] at hhas
  rw [fixsetHas, hhas]
  congr 1
  have hdrop : a.1.dropLast.length ≤ ADDR_LEN := by
    rw [List.length_dropLast, hlen]
    exact Nat.sub_le _ _
  rw [Bool.eq_iff_iff, hnode _ hdrop, decide_eq_true_iff]
  refine exists_congr (fun b => and_congr_right (fun _ => ?_))
  rw [List.prefix_iff_eq_take, List.dropLast_eq_take (l := b.1), List.length_dropLast, hlen, b.2]

end

/-- fixset_has is right about an address exactly when it was added, or no
address that was added differs from it in the last chunk only. -/
theorem fixset_has_iff (adds : List Addr) : ∃ s, fixsetRun adds = .ok s ∧
    ∀ a, (fixsetHas s a = .ok (decide (a ∈ adds)) ↔
      a ∈ adds ∨ ∀ b ∈ adds, a.1.dropLast ≠ b.1.dropLast) := by
  obtain ⟨s, hrun, hinv⟩ := fold_keeps (P := RunInv) (fun a h => h.add a) adds run_inv_new
  rw [List.nil_append] at hinv
  refine ⟨s, hrun, fun a => ?_⟩
  rw [hinv.has a, Except.ok.injEq, decide_eq_decide]
  constructor
  · intro hiff
    by_cases hin : a ∈ adds
    · exact Or.inl hin
    · right
      intro b hb he
      exact hin (hiff.mp ⟨b, hb, he⟩)
  · intro hin
    rcases hin with hin | hnone
    · exact ⟨fun _ => hin, fun _ => ⟨a, hin, rfl⟩⟩
    · constructor
      · intro hshare
        obtain ⟨b, hb, he⟩ := hshare
        exact absurd he (hnone b hb)
      · intro hin
        exact absurd rfl (hnone a hin)

/-- Addresses that differ in their last chunk only. -/
def highAddr (c : PtrT) : Addr := ⟨[0, 0, 0, c], rfl⟩

theorem fixset_has_last_chunk : ∃ s, fixsetRun [highAddr 0] = .ok s ∧
    fixsetHas s (highAddr 1) = .ok true ∧ highAddr 1 ∉ [highAddr 0] :=
  ⟨_, rfl, by decide, by decide⟩

end Fixset

end Mepl
