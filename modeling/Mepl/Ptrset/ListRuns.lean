import Mathlib.Data.List.Find
import Mepl.Base.Chain
import Mepl.Base.Trie
import Mepl.Ptrset.Listset

namespace Mepl.ListSet
open Base

/-- The list of the node np. -/
def head (s : ListSet) (np : Nat) : Ptr := (s.nodes[np]?).bind Node.kids

def next (s : ListSet) (k : Nat) : Option Ptr := (s.kids[k]?).map Kid.next

def edge (s : ListSet) (k : Nat) : Ptr := (s.kids[k]?).bind Kid.edge

/-- The chunk of the kid k. -/
def chunk (s : ListSet) (k : Nat) : PtrT := ((s.kids[k]?).map Kid.v).getD 0

/-- Every node has a list of its own kids, sorted by their chunks, and every
pointer to a node leads to one. -/
structure Lists (s : ListSet) (chain : Nat → List Nat) : Prop where
  held : ∀ np, Chain s.next (s.head np) (chain np)
  sorted : ∀ np, (chain np).Pairwise (fun j k => s.chunk j < s.chunk k)
  apart : ∀ np np' k, k ∈ chain np → k ∈ chain np' → np = np'
  root : ∀ np, s.root = some np → np < s.nodes.length
  edges : ∀ k np, s.edge k = some np → np < s.nodes.length

def trie (s : ListSet) (chain : Nat → List Nat) : Trie Nat Nat PtrT where
  root := s.root
  kid := fun np c => (chain np).find? (fun k => s.chunk k = c)
  edge := s.edge

def slotOf : NodeSlot → Trie.Slot Nat
  | .root => .root
  | .edge k => .edge k

/-- A slot that can be read and written. -/
def Valid (s : ListSet) : NodeSlot → Prop
  | .root => True
  | .edge k => k < s.kids.length

/-- The slot behind the kids xs at the front of the list of np. -/
def slotAfter (np : Nat) (xs : List Nat) : KidSlot :=
  match xs.getLast? with
  | none => .kids np
  | some k => .next k

section
variable {s s' : ListSet} {chain : Nat → List Nat} {np k n : Nat} {npp : NodeSlot} {c : PtrT}
  {xs ys : List Nat}

theorem chunk_of {kid : Kid} (h : s.kids[k]? = some kid) : s.chunk k = kid.v := by
  rw [chunk, h]
  rfl

theorem Lists.kid (h : Lists s chain) (hk : k ∈ chain np) : ∃ kid, s.kids[k]? = some kid := by
  obtain ⟨q, hq⟩ := (h.held np).cell_mem hk
  obtain ⟨kid, hkid, -⟩ := Option.map_eq_some_iff.mp hq
  exact ⟨kid, hkid⟩

theorem Lists.lt (h : Lists s chain) (hk : k ∈ chain np) : k < s.kids.length := by
  obtain ⟨kid, hkid⟩ := h.kid hk
  exact (List.getElem?_eq_some_iff.mp hkid).1

theorem Lists.length_le (h : Lists s chain) (np : Nat) : (chain np).length ≤ s.kids.length :=
  length_le_of_lt (h.held np).nodup (fun _ hk => h.lt hk)

theorem Lists.absent (h : Lists s chain) (hnp : s.nodes.length ≤ np) : chain np = [] := by
  have hnone := h.held np
  rw [head, List.getElem?_eq_none hnp] at hnone
  exact hnone.unique .nil

theorem Lists.find_lt (h : Lists s chain)
    (hf : (chain np).find? (fun k => s.chunk k = c) = some k) : k < s.kids.length :=
  h.lt (List.mem_of_find?_eq_some hf)

/-- kid_find finds the kid of the list that is for the chunk. -/
theorem kid_find_loop_spec (hchain : Chain s.next p ys) (hfuel : ys.length < n) :
    kidFindLoop s.kids c n p = .ok (ys.find? (fun k => s.chunk k = c)) := by
  induction ys generalizing n p with
  | nil =>
    cases hchain
    cases n with
    | zero => exact absurd hfuel (Nat.lt_irrefl 0)
    | succ n => rfl
  | cons k ys ih =>
    cases hchain with
    | cons cell rest =>
      cases n with
      | zero => exact absurd hfuel (Nat.not_lt_zero _)
      | succ n =>
        obtain ⟨kid, hkid, rfl⟩ := Option.map_eq_some_iff.mp cell
        rw [kidFindLoop, load_some hkid, ok_bind, ih rest (Nat.lt_of_succ_lt_succ hfuel),
          List.find?_cons, chunk_of hkid]
        by_cases hc : kid.v = c <;> simp [hc]

theorem kid_find_spec (h : Lists s chain) (hnp : np < s.nodes.length) :
    kidFind s np c = .ok ((s.trie chain).kid np c) := by
  have hhead : s.head np = s.nodes[np].kids := by simp [head, hnp]
  have hchain := hhead ▸ h.held np
  rw [kidFind, load_lt hnp, ok_bind]
  exact kid_find_loop_spec hchain (Nat.lt_succ_of_le (h.length_le np))

theorem read_node (chain : Nat → List Nat) (hv : s.Valid npp) :
    s.readNode npp = .ok ((s.trie chain).read (slotOf npp)) := by
  cases npp with
  | root => rfl
  | edge k =>
    have hk : k < s.kids.length := hv
    simp [readNode, load_lt hk, slotOf, Trie.read, trie, edge, hk]

theorem Lists.read_lt (h : Lists s chain) (hr : (s.trie chain).read (slotOf npp) = some np) :
    np < s.nodes.length := by
  cases npp with
  | root => exact h.root np hr
  | edge k => exact h.edges k np hr

/-- list_set_has walks the trie. -/
theorem do_list_set_has_spec (h : Lists s chain) (cs : List PtrT) (kp : Ptr)
    (hkp : ∀ np, kp = some np → np < s.nodes.length) :
    doListSetHas s kp cs = .ok ((s.trie chain).has kp cs) := by
  induction cs generalizing kp with
  | nil => cases kp <;> rfl
  | cons c cs ih =>
    cases kp with
    | none => rfl
    | some np =>
      rw [doListSetHas, kid_find_spec h (hkp np rfl), ok_bind, Trie.has]
      cases hf : (s.trie chain).kid np c with
      | none => rfl
      | some k =>
        have hk := h.find_lt hf
        have hedge : s.edge k = s.kids[k].edge := by simp [edge, hk]
        simp only [load_lt hk, ok_bind, ← hedge]
        exact ih _ (fun m hm => h.edges k m hm)

theorem fresh_node (h : Lists s chain) : (s.trie chain).Fresh s.nodes.length where
  kids := by
    intro c
    simp [trie, h.absent (Nat.le_refl _)]
  root := fun hr => Nat.lt_irrefl _ (h.root _ hr)
  edge := fun _ he => Nat.lt_irrefl _ (h.edges _ _ he)

/-- What a list is made of is the same. -/
theorem Lists.same (h : Lists s chain) (hhead : s'.head = s.head) (hnext : s'.next = s.next)
    (hchunk : s'.chunk = s.chunk) (hroot : ∀ np, s'.root = some np → np < s'.nodes.length)
    (hedges : ∀ k np, s'.edge k = some np → np < s'.nodes.length) : Lists s' chain where
  held := by
    rw [hhead, hnext]
    exact h.held
  sorted := by
    rw [hchunk]
    exact h.sorted
  apart := h.apart
  root := hroot
  edges := hedges

theorem head_append (s : ListSet) (np : Nat) :
    ((s.nodes ++ [(⟨none⟩ : Node)])[np]?).bind Node.kids = s.head np := by
  rw [head, List.getElem?_append]
  split
  · rfl
  · rename_i hge
    rw [List.getElem?_eq_none (Nat.le_of_not_lt hge)]
    cases np - s.nodes.length <;> rfl

/-- A field of every element is kept where the element written has it as the
one before. -/
theorem field_set {α β : Type} (f : Option α → β) {l : List α} {x : α} (hk : k < l.length)
    (hf : f (some x) = f (some l[k])) (j : Nat) : f ((l.set k x)[j]?) = f (l[j]?) := by
  by_cases hj : k = j
  · subst hj
    rw [List.getElem?_set_self hk, List.getElem?_eq_getElem hk]
    exact hf
  · rw [List.getElem?_set_ne hj]

/-- `*npp = node_new(lp)` hangs up a fresh node. -/
theorem set_new_spec (h : Lists s chain) (hv : s.Valid npp) :
    ∃ s', s.setNew npp = .ok s' ∧ Lists s' chain ∧ s'.kids.length = s.kids.length ∧
      s'.trie chain = (s.trie chain).attach (slotOf npp) s.nodes.length := by
  have hgrow : ∀ np, np < s.nodes.length → np < (s.nodes ++ [(⟨none⟩ : Node)]).length := by
    intro np hnp
    rw [List.length_append]
    exact Nat.lt_add_right 1 hnp
  have hnew : s.nodes.length < (s.nodes ++ [(⟨none⟩ : Node)]).length := by
    simp
  cases npp with
  | root =>
    refine ⟨_, rfl, h.same (funext (head_append s)) rfl rfl ?_ ?_, rfl, rfl⟩
    · intro np hr
      cases hr
      exact hnew
    · exact fun k np he => hgrow np (h.edges k np he)
  | edge k =>
    have hk : k < s.kids.length := hv
    let s' : ListSet := { s with
      psBytes := s.psBytes + sizeofNode
      nodes := s.nodes ++ [⟨none⟩]
      kids := s.kids.set k { s.kids[k] with edge := some s.nodes.length } }
    have hnext : s'.next = s.next := funext (field_set (Option.map Kid.next) hk rfl)
    have hchunk : s'.chunk = s.chunk :=
      funext (field_set (fun kid => (kid.map Kid.v).getD 0) hk rfl)
    have hedge : ∀ j, s'.edge j = if j = k then some s.nodes.length else s.edge j := by
      intro j
      simp only [edge, s', List.getElem?_set, hk, ↓reduceIte]
      by_cases hj : k = j
      · simp [hj]
      · simp [hj, Ne.symm hj]
    refine ⟨s', ?_, h.same (funext (head_append s)) hnext hchunk ?_ ?_, List.length_set, ?_⟩
    · simp [setNew, writeNode, load_lt hk, store_lt hk, s']
    · exact fun np hr => hgrow np (h.root np hr)
    · intro j np he
      rw [hedge] at he
      split at he
      · cases he
        exact hnew
      · exact hgrow np (h.edges j np he)
    · simp only [trie, hchunk, funext hedge]
      rfl

theorem read_slot (hnp : np < s.nodes.length) (h : Chain s.next (s.head np) (xs ++ ys)) :
    s.readKid (slotAfter np xs) = .ok ys.head? := by
  rcases List.eq_nil_or_concat xs with rfl | ⟨zs, x, rfl⟩
  · have hhead : s.head np = s.nodes[np].kids := by simp [head, hnp]
    have hys : s.head np = ys.head? := h.head
    rw [slotAfter, List.getLast?_nil]
    simp [readKid, load_lt hnp, ← hhead, hys]
  · rw [List.concat_eq_append] at h ⊢
    rw [List.append_assoc] at h
    cases h.suffix with
    | cons cell rest =>
      obtain ⟨kid, hkid, rfl⟩ := Option.map_eq_some_iff.mp cell
      rw [slotAfter, List.getLast?_concat]
      simp only [readKid, load_some hkid, ok_bind, pure_ok]
      exact congrArg _ rest.head

/-- The loop of kid_get_or_set ends at the kid for the chunk, or between the
kids below the chunk and the kids above it. -/
theorem kid_slot_loop_spec (h : Lists s chain) (hnp : np < s.nodes.length)
    (hsplit : chain np = xs ++ ys) (hbelow : ∀ k ∈ xs, s.chunk k < c) (hfuel : ys.length < n) :
    (∃ k, (chain np).find? (fun k => s.chunk k = c) = some k ∧
      kidSlotLoop s c n (slotAfter np xs) = .ok (.inl k)) ∨
    (∃ ys₁ ys₂, chain np = xs ++ ys₁ ++ ys₂ ∧ (∀ k ∈ xs ++ ys₁, s.chunk k < c) ∧
      (∀ k ∈ ys₂, c < s.chunk k) ∧
      kidSlotLoop s c n (slotAfter np xs) = .ok (.inr (slotAfter np (xs ++ ys₁)))) := by
  have hchain := h.held np
  have hsorted := h.sorted np
  rw [hsplit] at hchain hsorted
  have hread := read_slot hnp hchain
  induction ys generalizing xs n with
  | nil =>
    cases n with
    | zero => exact absurd hfuel (Nat.lt_irrefl 0)
    | succ n =>
      refine Or.inr ⟨[], [], by simpa using hsplit, by simpa using hbelow, by simp, ?_⟩
      rw [kidSlotLoop, hread, List.append_nil]
      rfl
  | cons k ys ih =>
    cases n with
    | zero => exact absurd hfuel (Nat.not_lt_zero _)
    | succ n =>
      have hk : k ∈ chain np := by simp [hsplit]
      obtain ⟨kid, hkid⟩ := h.kid hk
      have hv := chunk_of hkid
      rw [kidSlotLoop, hread, ok_bind]
      simp only [List.head?_cons, load_some hkid, ok_bind]
      have habove := (List.pairwise_cons.mp (List.pairwise_append.mp hsorted).2.1).1
      rcases lt_trichotomy kid.v c with hlt | heq | hgt
      · rw [if_neg (ne_of_lt hlt), if_neg (not_lt_of_gt hlt)]
        have hsplit' : chain np = (xs ++ [k]) ++ ys := by simp [hsplit]
        have hbelow' : ∀ j ∈ xs ++ [k], s.chunk j < c := by
          intro j hj
          rcases List.mem_append.mp hj with hj | hj
          · exact hbelow j hj
          · rw [List.mem_singleton.mp hj, hv]
            exact hlt
        have hslot : slotAfter np (xs ++ [k]) = .next k := by
          rw [slotAfter, List.getLast?_concat]
        have hchain' := h.held np
        have hsorted' := h.sorted np
        rw [hsplit'] at hchain' hsorted'
        have hnext := ih hsplit' hbelow' (Nat.lt_of_succ_lt_succ hfuel) hchain' hsorted'
          (read_slot hnp hchain')
        rw [hslot] at hnext
        rcases hnext with hfound | ⟨ys₁, ys₂, hsplit₂, hb, ha, hrun⟩
        · exact Or.inl hfound
        · refine Or.inr ⟨k :: ys₁, ys₂, ?_, ?_, ha, ?_⟩
          · simpa using hsplit₂
          · simpa using hb
          · simpa using hrun
      · refine Or.inl ⟨k, ?_, by rw [if_pos heq]; rfl⟩
        rw [hsplit, List.find?_append, List.find?_eq_none.mpr, Option.none_or, List.find?_cons,
          hv, heq]
        · simp
        · intro j hj
          simpa using ne_of_lt (hbelow j hj)
      · refine Or.inr ⟨[], k :: ys, by simpa using hsplit, by simpa using hbelow, ?_, ?_⟩
        · intro j hj
          rcases List.mem_cons.mp hj with rfl | hj
          · rw [hv]
            exact hgt
          · exact lt_trans hgt (hv ▸ habove j hj)
        · rw [if_neg (ne_of_gt hgt), if_pos hgt, List.append_nil]
          rfl

/-- The kid written to the slot behind xs is the next one there. -/
theorem write_slot (hnp : np < s.nodes.length) (hxs : ∀ x ∈ xs, x < s.kids.length) :
    ∃ s', s.writeKid (slotAfter np xs) (some k) = .ok s' ∧ s'.nodes.length = s.nodes.length ∧
      s'.kids.length = s.kids.length ∧ s'.root = s.root ∧ s'.edge = s.edge ∧
      s'.chunk = s.chunk ∧
      (∀ m, s'.head m = if xs = [] ∧ m = np then some k else s.head m) ∧
      (∀ x, s'.next x = if xs.getLast? = some x then some (some k) else s.next x) := by
  rcases List.eq_nil_or_concat xs with rfl | ⟨zs, x, rfl⟩
  · refine ⟨{ s with nodes := s.nodes.set np ⟨some k⟩ }, ?_, List.length_set, rfl, rfl, rfl, rfl,
      fun m => ?_, fun x => by simp [next]⟩
    · simp [slotAfter, writeKid, load_lt hnp, store_lt hnp]
    · simp only [head, List.getElem?_set]
      by_cases hm : np = m
      · subst hm
        simp [hnp]
      · simp [hm, Ne.symm hm]
  · rw [List.concat_eq_append] at hxs ⊢
    have hx : x < s.kids.length := hxs x (by simp)
    refine ⟨{ s with kids := s.kids.set x { s.kids[x] with next := some k } }, ?_, rfl,
      List.length_set, rfl, funext (field_set (fun kid => kid.bind Kid.edge) hx rfl),
      funext (field_set (fun kid => (kid.map Kid.v).getD 0) hx rfl), fun m => by simp [head],
      fun j => ?_⟩
    · simp [slotAfter, writeKid, load_lt hx, store_lt hx]
    · simp only [next, List.getElem?_set, hx, ↓reduceIte, List.getLast?_concat, Option.some_inj]
      split <;> rfl

theorem get_append_one {α : Type} (l : List α) (a : α) (j : Nat) :
    (l ++ [a])[j]? = if j = l.length then some a else l[j]? := by
  split
  · rename_i hj
    simp [hj]
  · rename_i hj
    rcases Nat.lt_or_gt_of_ne hj with hlt | hgt
    · exact List.getElem?_append_left hlt
    · rw [List.getElem?_eq_none (Nat.le_of_lt hgt), List.getElem?_eq_none]
      rw [List.length_append, List.length_singleton]
      omega

/-- A new kid for c in the list of np, between the kids below c and the kids
above it. -/
theorem Lists.insert (h : Lists s chain) (hsplit : chain np = xs ++ ys)
    (hbelow : ∀ k ∈ xs, s.chunk k < c) (habove : ∀ k ∈ ys, c < s.chunk k)
    (hnodes : s'.nodes.length = s.nodes.length)
    (hroot : s'.root = s.root)
    (hedge : ∀ j, s'.edge j = if j = s.kids.length then none else s.edge j)
    (hchunk : ∀ j, s'.chunk j = if j = s.kids.length then c else s.chunk j)
    (hhead : ∀ m, s'.head m = if xs = [] ∧ m = np then some s.kids.length else s.head m)
    (hnext : ∀ x, s'.next x = if xs.getLast? = some x then some (some s.kids.length)
      else if x = s.kids.length then some ys.head? else s.next x) :
    Lists s' (Function.update chain np (xs ++ s.kids.length :: ys)) where
  held := by
    refine (Function.forall_update_iff chain (fun m ks => Chain s'.next (s'.head m) ks)).mpr
      ⟨?_, fun m hm => ?_⟩
    · have hold := h.held np
      rw [hsplit] at hold
      have hhead' : s'.head np = (xs ++ s.kids.length :: ys).head? := by
        rw [hhead]
        cases xs with
        | nil => simp
        | cons x xs => simp [hold.head]
      rw [hhead']
      have hlt : ∀ x ∈ xs ++ ys, x ≠ s.kids.length := by
        intro x hx
        exact Nat.ne_of_lt (h.lt (hsplit.symm ▸ hx))
      refine hold.insert ?_ (fun x hx => by rw [hnext, if_pos hx]) (fun x hx hne => ?_)
      · rw [hnext, if_neg, if_pos rfl]
        intro he
        exact hlt _ (List.mem_append_left ys (List.mem_of_getLast? he)) rfl
      · rw [hnext, if_neg hne, if_neg (hlt x hx)]
    · rw [hhead, if_neg (fun he => hm he.2)]
      refine (h.held m).congr (fun k hk => ?_)
      rw [hnext, if_neg, if_neg (Nat.ne_of_lt (h.lt hk))]
      intro he
      have hin : k ∈ chain np := by
        rw [hsplit]
        exact List.mem_append_left ys (List.mem_of_getLast? he)
      exact hm (h.apart m np k hk hin)
  sorted := by
    have hkept : ∀ m, ∀ k ∈ chain m, s'.chunk k = s.chunk k := by
      intro m k hk
      rw [hchunk, if_neg (Nat.ne_of_lt (h.lt hk))]
    have hold : ∀ m, (chain m).Pairwise (fun j k => s'.chunk j < s'.chunk k) := by
      intro m
      refine (h.sorted m).imp_of_mem (fun {j k} hj hk hlt => ?_)
      rwa [hkept m j hj, hkept m k hk]
    have hnew : s'.chunk s.kids.length = c := by rw [hchunk, if_pos rfl]
    refine (Function.forall_update_iff chain (fun _ ks =>
      ks.Pairwise (fun j k => s'.chunk j < s'.chunk k))).mpr ⟨?_, fun m _ => hold m⟩
    refine pairwise_insert (hsplit ▸ hold np) (fun k hk => ?_) (fun k hk => ?_)
    · rw [hnew, hkept np k (hsplit ▸ List.mem_append_left ys hk)]
      exact hbelow k hk
    · rw [hnew, hkept np k (hsplit ▸ List.mem_append_right xs hk)]
      exact habove k hk
  apart := by
    have hmem : ∀ m, ∀ k ∈ Function.update chain np (xs ++ s.kids.length :: ys) m,
        k ∈ chain m ∨ m = np ∧ k = s.kids.length := by
      refine (Function.forall_update_iff chain
        (fun m ks => ∀ k ∈ ks, k ∈ chain m ∨ m = np ∧ k = s.kids.length)).mpr ⟨?_, ?_⟩
      · intro k hk
        rw [hsplit]
        simp only [List.mem_append, List.mem_cons] at hk ⊢
        tauto
      · exact fun m _ k hk => Or.inl hk
    intro m m' k hm hm'
    rcases hmem m k hm with hk | ⟨he, hk⟩ <;> rcases hmem m' k hm' with hk' | ⟨he', hk'⟩
    · exact h.apart m m' k hk hk'
    · exact absurd hk' (Nat.ne_of_lt (h.lt hk))
    · exact absurd hk (Nat.ne_of_lt (h.lt hk'))
    · exact he.trans he'.symm
  root := by
    rw [hroot, hnodes]
    exact h.root
  edges := by
    intro k m hm
    rw [hedge] at hm
    rw [hnodes]
    split at hm
    · cases hm
    · exact h.edges k m hm

/-- Looking up finds the new kid for its chunk, and what it found for others. -/
theorem Lists.insert_find (h : Lists s chain) (hsplit : chain np = xs ++ ys)
    (hbelow : ∀ k ∈ xs, s.chunk k < c)
    (hchunk : ∀ j, s'.chunk j = if j = s.kids.length then c else s.chunk j) (m : Nat) (d : PtrT) :
    (Function.update chain np (xs ++ s.kids.length :: ys) m).find? (fun k => s'.chunk k = d) =
      if m = np ∧ d = c then some s.kids.length
      else (chain m).find? (fun k => s.chunk k = d) := by
  have hold : ∀ ks : List Nat, (∀ k ∈ ks, k ∈ chain m) →
      ks.find? (fun k => s'.chunk k = d) = ks.find? (fun k => s.chunk k = d) := by
    intro ks hks
    refine List.find?_congr (fun k hk => ?_)
    rw [hchunk k, if_neg (Nat.ne_of_lt (h.lt (hks k hk)))]
  by_cases hm : m = np
  · subst hm
    have hnew : s'.chunk s.kids.length = c := by rw [hchunk, if_pos rfl]
    have hxs := hold xs (fun k hk => hsplit.symm ▸ List.mem_append_left ys hk)
    have hys := hold ys (fun k hk => hsplit.symm ▸ List.mem_append_right xs hk)
    rw [Function.update_self, List.find?_append, List.find?_cons, hxs, hys, hnew, hsplit,
      List.find?_append]
    by_cases hd : d = c
    · subst hd
      have hnone : xs.find? (fun k => s.chunk k = d) = none := by
        rw [List.find?_eq_none]
        intro k hk
        simpa using ne_of_lt (hbelow k hk)
      simp [hnone]
    · simp [hd, Ne.symm hd]
  · rw [Function.update_of_ne hm, if_neg (fun he => hm he.1)]
    exact hold (chain m) (fun k hk => hk)

/-- kid_get_or_set finds the kid or makes it. -/
theorem kid_get_or_set_spec (h : Lists s chain) (hnp : np < s.nodes.length) (c : PtrT) :
    ∃ s' chain' k, kidGetOrSet s np c = .ok (s', k) ∧ Lists s' chain' ∧
      (s.trie chain).GetOrSet np c (s'.trie chain') k ∧ s'.Valid (.edge k) := by
  have hfuel := Nat.lt_succ_of_le (h.length_le np)
  have hstart : slotAfter np [] = .kids np := rfl
  have hall : chain np = [] ++ chain np := rfl
  rcases kid_slot_loop_spec h hnp hall (by simp) hfuel with
    ⟨k, hfind, hrun⟩ | ⟨xs, ys, hsplit, hbelow, habove, hrun⟩
  · rw [hstart] at hrun
    refine ⟨s, chain, k, ?_, h, .there hfind, h.find_lt hfind⟩
    rw [kidGetOrSet, hrun]
    rfl
  · rw [hstart] at hrun
    simp only [List.nil_append] at hsplit hbelow hrun
    have hread := read_slot hnp (hsplit ▸ h.held np)
    let kid : Kid := ⟨none, ys.head?, c⟩
    let s₁ : ListSet := { s with kids := s.kids ++ [kid] }
    have hget : ∀ j, s₁.kids[j]? = if j = s.kids.length then some kid else s.kids[j]? :=
      get_append_one s.kids kid
    have hxs : ∀ x ∈ xs, x < s₁.kids.length := by
      intro x hx
      have hlt := h.lt (hsplit.symm ▸ List.mem_append_left ys hx)
      simp only [s₁, List.length_append]
      omega
    obtain ⟨s₂, hwrite, hnodes, hkids, hroot, hedge, hchunk, hhead, hnext⟩ :=
      write_slot (s := s₁) (k := s.kids.length) hnp hxs
    have hedge' : ∀ j, s₂.edge j = if j = s.kids.length then none else s.edge j := by
      intro j
      rw [hedge, edge, hget]
      split <;> rfl
    have hchunk' : ∀ j, s₂.chunk j = if j = s.kids.length then c else s.chunk j := by
      intro j
      rw [hchunk, chunk, hget]
      split <;> rfl
    have hnext' : ∀ x, s₂.next x = if xs.getLast? = some x then some (some s.kids.length)
        else if x = s.kids.length then some ys.head? else s.next x := by
      intro x
      rw [hnext]
      split
      · rfl
      · rw [next, hget]
        split <;> rfl
    have h₂ := h.insert hsplit hbelow habove hnodes hroot hedge' hchunk' hhead hnext'
    refine ⟨{ s₂ with psBytes := s₂.psBytes + sizeofKid }, _, s.kids.length, ?_,
      h₂.same rfl rfl rfl h₂.root h₂.edges, ?_, ?_⟩
    · simp only [kidGetOrSet, hrun, ok_bind, hread]
      rw [hwrite]
      rfl
    · have hmissing : (s.trie chain).kid np c = none := by
        simp only [trie, hsplit, List.find?_eq_none, List.mem_append, decide_eq_true_eq]
        intro k hk
        rcases hk with hk | hk
        · exact ne_of_lt (hbelow k hk)
        · exact ne_of_gt (habove k hk)
      have hfresh : ∀ n d, (s.trie chain).kid n d ≠ some s.kids.length :=
        fun n d hk => Nat.lt_irrefl _ (h.find_lt hk)
      have htrie : ({ s₂ with psBytes := s₂.psBytes + sizeofKid } : ListSet).trie
          (Function.update chain np (xs ++ s.kids.length :: ys)) =
            (s.trie chain).insert np c s.kids.length := by
        simp only [trie, Trie.insert, Trie.mk.injEq]
        exact ⟨hroot, funext (fun m => funext (h.insert_find hsplit hbelow hchunk' m)),
          funext hedge'⟩
      rw [htrie]
      exact .new hmissing hfresh
    · have hlen : s₂.kids.length = s.kids.length + 1 := by
        rw [hkids]
        simp [s₁]
      exact Nat.lt_of_lt_of_eq (Nat.lt_succ_self _) hlen.symm

/-- The node at a slot, made where there is none. -/
theorem ensure_node (h : Lists s chain) (hv : s.Valid npp) :
    ∃ s' np, (if ((s.trie chain).read (slotOf npp)).isNone then s.setNew npp else pure s) =
        .ok s' ∧ Lists s' chain ∧ (s.trie chain).Ensure (slotOf npp) (s'.trie chain) np ∧
      s'.readNode npp = .ok (some np) ∧ np < s'.nodes.length := by
  cases hr : (s.trie chain).read (slotOf npp) with
  | some np =>
    refine ⟨s, np, rfl, h, .there hr, ?_, h.read_lt hr⟩
    rw [read_node chain hv, hr]
  | none =>
    obtain ⟨s', hrun, h', hlen, htrie⟩ := set_new_spec h hv
    have hv' : s'.Valid npp := by
      cases npp with
      | root => trivial
      | edge k => exact Nat.lt_of_lt_of_eq hv hlen.symm
    have hread : (s'.trie chain).read (slotOf npp) = some s.nodes.length := by
      rw [htrie, Trie.read_attach]
    refine ⟨s', s.nodes.length, hrun, h', ?_, ?_, h'.read_lt hread⟩
    · rw [htrie]
      exact .new hr (fresh_node h)
    · rw [read_node chain hv', hread]

/-- list_set_add makes the way for its chunks. -/
theorem do_list_set_add_spec (cs : List PtrT) (h : Lists s chain) (hv : s.Valid npp) :
    ∃ s' chain', doListSetAdd s npp cs = .ok s' ∧ Lists s' chain' ∧
      (s.trie chain).Adds (slotOf npp) cs (s'.trie chain') := by
  induction cs generalizing s chain npp with
  | nil =>
    obtain ⟨s', hrun, h', -, htrie⟩ := set_new_spec h hv
    refine ⟨s', chain, hrun, h', ?_⟩
    rw [htrie]
    exact .done (fresh_node h)
  | cons c cs ih =>
    obtain ⟨s₁, np, hrun₁, h₁, hensure, hread, hnp⟩ := ensure_node h hv
    obtain ⟨s₂, chain₂, k, hrun₂, h₂, hget, hk⟩ := kid_get_or_set_spec h₁ hnp c
    obtain ⟨s₃, chain₃, hrun₃, h₃, hadds⟩ := ih h₂ hk
    refine ⟨s₃, chain₃, ?_, h₃, .step hensure hget hadds⟩
    rw [doListSetAdd, read_node chain hv, ok_bind, hrun₁]
    simp only [ok_bind, hread, hrun₂, hrun₃]

end

/-- The kids of every node are a list in strictly increasing order. -/
def SortedKids (s : ListSet) : Prop :=
  ∀ (np : Nat) (node : Node), s.nodes[np]? = some node → ∃ ks, Chain s.next node.kids ks ∧
    ks.Pairwise (fun j k => s.chunk j < s.chunk k)

/-- What a run keeps: the lists, and a trie of the addresses added. -/
def RunInv (s : ListSet) (added : List Addr) : Prop :=
  ∃ chain key, Lists s chain ∧ (s.trie chain).Ok key ∧
    ∀ a : Addr, (s.trie chain).has s.root a.1 = true ↔ a ∈ added

section
variable {s : ListSet} {added : List Addr}

theorem run_inv_new : RunInv listSetNew [] := by
  have hlists : Lists listSetNew (fun _ => []) := by
    constructor <;> simp [listSetNew, head, edge]
    exact .nil
  refine ⟨fun _ => [], fun _ => [], hlists, ?_, ?_⟩
  · constructor <;> simp [trie, listSetNew]
  · intro a
    obtain ⟨cs, hcs⟩ := a
    cases cs with
    | nil => cases hcs
    | cons c cs => simp [listSetNew, Trie.has]

theorem RunInv.add (h : RunInv s added) (a : Addr) :
    ∃ s', listSetAdd s a = .ok s' ∧ RunInv s' (added ++ [a]) := by
  obtain ⟨chain, key, hlists, htrie, hhas⟩ := h
  have hvalid : s.Valid .root := trivial
  obtain ⟨s', chain', hrun, hlists', hadds⟩ := do_list_set_add_spec a.1 hlists hvalid
  obtain ⟨key', htrie', hhas'⟩ := hadds.has htrie rfl
  refine ⟨s', hrun, chain', key', hlists', htrie', fun b => ?_⟩
  have hlenb : b.1.length = ([] : List PtrT).length + a.1.length := by
    rw [a.2, b.2]
    rfl
  have hb := hhas' b.1 hlenb
  rw [List.nil_append, Subtype.val_inj] at hb
  rw [List.mem_append, List.mem_singleton, ← hhas b]
  exact hb

theorem RunInv.has (h : RunInv s added) (a : Addr) :
    listSetHas s a = .ok (decide (a ∈ added)) := by
  obtain ⟨chain, key, hlists, -, hhas⟩ := h
  rw [listSetHas, do_list_set_has_spec hlists a.1 s.root hlists.root]
  congr 1
  rw [Bool.eq_iff_iff, hhas a, decide_eq_true_iff]

theorem RunInv.sorted_kids (h : RunInv s added) : SortedKids s := by
  obtain ⟨chain, key, hlists, -⟩ := h
  intro np node hnode
  have hheld := hlists.held np
  rw [head, hnode] at hheld
  exact ⟨chain np, hheld, hlists.sorted np⟩

/-- Induction on the calls, with the addresses added so far. -/
theorem calls_spec (ops : List SetOp) (h : RunInv s added) :
    ∃ s' added', listSetCalls s ops = .ok (s', answers added ops) ∧ RunInv s' added' := by
  induction ops generalizing s added with
  | nil => exact ⟨s, added, rfl, h⟩
  | cons op ops ih =>
    cases op with
    | add a =>
      obtain ⟨s₁, hrun₁, h₁⟩ := h.add a
      obtain ⟨s₂, added₂, hrun₂, h₂⟩ := ih h₁
      refine ⟨s₂, added₂, ?_, h₂⟩
      rw [listSetCalls, hrun₁, ok_bind, hrun₂]
      rfl
    | has a =>
      obtain ⟨s₂, added₂, hrun₂, h₂⟩ := ih h
      refine ⟨s₂, added₂, ?_, h₂⟩
      rw [listSetCalls, h.has a, ok_bind, hrun₂]
      rfl

end

/-- list_set is a set of addresses: every run gets its answers, and leaves the
kids of every node in order. -/
theorem list_set_is_set (ops : List SetOp) :
    ∃ s, listSetRun ops = .ok (s, answers [] ops) ∧ SortedKids s := by
  obtain ⟨s, added, hrun, hinv⟩ := calls_spec ops run_inv_new
  exact ⟨s, hrun, hinv.sorted_kids⟩

end Mepl.ListSet
