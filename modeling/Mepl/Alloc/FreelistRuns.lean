import Mathlib.Data.List.Perm.Basic
import Mepl.Alloc.Freelist

namespace Mepl
open Base

/-- A node in a run: what it has not handed out yet starts at front, and it
counts no more slots than are clear. -/
structure DbQueryNodeInv (SIZE : BitsetSize) (live : List DbQueryNodePtr) (fnp : Nat)
    (np : DbQueryNode) : Prop where
  length : np.fnFree.set.length = BITSET_SIZE SIZE.size
  slots : ∀ i < SIZE.size, (hasBit np.fnFree.set i = true ↔ ⟨fnp, ⟨fnp, i⟩⟩ ∈ live)
  le : np.fnCount ≤ (clearBits np.fnFree.set SIZE.size).card
  front : ∃ front, front + np.fnCount ≤ SIZE.size ∧ 64 * np.fnFree.last ≤ front ∧
    ∀ i < SIZE.size, front ≤ i → hasBit np.fnFree.set i = false

/-- What a run keeps: every node is on the list, and the ring is never used. -/
structure FreelistInv (SIZE : BitsetSize) (fl : Freelist) (live : List DbQueryNodePtr)
    (fnps : List Nat) : Prop where
  nodes : ∀ fnp < fl.nodes.length, ∃ np, fl.node fnp = .ok np ∧ DbQueryNodeInv SIZE live fnp np
  list : fl.links.Ring .freelist (fnps.map .fnList)
  all : fnps.Perm (List.range fl.nodes.length)
  unused : fl.ring.rLen = 0
  inside : ∀ p ∈ live, p.pOwner < fl.nodes.length ∧ p.pPtr.node = p.pOwner ∧
    p.pPtr.idx < SIZE.size
  nodup : live.Nodup

/-- Every node counts its clear bits. -/
def Counted (SIZE : BitsetSize) (fl : Freelist) : Prop :=
  ∀ fnp np, fl.node fnp = .ok np → np.fnCount = (clearBits np.fnFree.set SIZE.size).card

/-- With a new node at the front of the list. -/
def Freelist.withNew (SIZE : BitsetSize) (fl : Freelist) : Freelist :=
  { fl with
    nodes := fl.nodes ++ [some ⟨bitsetInit SIZE, SIZE.size⟩]
    links := (fl.links.init (.fnList fl.nodes.length)).addAfter .freelist
      (.fnList fl.nodes.length) }

/-- With a node of the list at the front of it. -/
def Freelist.toFront (fl : Freelist) (fnp : Nat) : Freelist :=
  { fl with links := (fl.links.rm (.fnList fnp)).addAfter .freelist (.fnList fnp) }

section
variable {SIZE : BitsetSize} {CACHE : Nat} {fl fl' : Freelist} {live live' : List DbQueryNodePtr}
  {fnps : List Nat} {fnp : Nat} {np np' : DbQueryNode} {p : DbQueryNodePtr}

theorem freelist_node_ok : fl.node fnp = .ok np ↔ fl.nodes[fnp]? = some (some np) := by
  unfold Freelist.node
  split <;> simp_all

theorem freelist_node_lt (h : fl.node fnp = .ok np) : fnp < fl.nodes.length := by
  obtain ⟨hlt, -⟩ := List.getElem?_eq_some_iff.mp (freelist_node_ok.mp h)
  exact hlt

theorem set_node_same (h : fnp < fl.nodes.length) : (fl.setNode fnp np).node fnp = .ok np := by
  simp [freelist_node_ok, Freelist.setNode, h]

theorem set_node_other {a : Nat} (h : a ≠ fnp) : (fl.setNode fnp np).node a = fl.node a := by
  simp [Freelist.node, Freelist.setNode, List.getElem?_set_ne h.symm]

@[simp] theorem set_node_length : (fl.setNode fnp np).nodes.length = fl.nodes.length := by
  simp [Freelist.setNode]

/-- A change of one node that keeps its surplus keeps all counts right or wrong. -/
theorem counted_set_node (h : fl.node fnp = .ok np)
    (hsame : np'.fnCount = (clearBits np'.fnFree.set SIZE.size).card ↔
      np.fnCount = (clearBits np.fnFree.set SIZE.size).card) :
    Counted SIZE (fl.setNode fnp np') ↔ Counted SIZE fl := by
  have hlt := freelist_node_lt h
  constructor
  · intro hall a na ha
    by_cases he : a = fnp
    · rw [he, h] at ha
      cases ha
      exact hsame.mp (hall fnp np' (set_node_same hlt))
    · exact hall a na ((set_node_other he).trans ha)
  · intro hall a na ha
    by_cases he : a = fnp
    · rw [he, set_node_same hlt] at ha
      cases ha
      exact hsame.mpr (hall fnp np h)
    · exact hall a na ((set_node_other he).symm.trans ha)

theorem DbQueryNodeInv.congr (h : DbQueryNodeInv SIZE live fnp np)
    (hlive : ∀ i, (⟨fnp, ⟨fnp, i⟩⟩ : DbQueryNodePtr) ∈ live' ↔ ⟨fnp, ⟨fnp, i⟩⟩ ∈ live) :
    DbQueryNodeInv SIZE live' fnp np :=
  ⟨h.length, fun i hi => (h.slots i hi).trans (hlive i).symm, h.le, h.front⟩

theorem db_query_node_inv_init (h : ∀ p ∈ live, p.pOwner ≠ fnp) :
    DbQueryNodeInv SIZE live fnp ⟨bitsetInit SIZE, SIZE.size⟩ where
  length := List.length_replicate
  slots := by
    intro i _
    have hnot : (⟨fnp, ⟨fnp, i⟩⟩ : DbQueryNodePtr) ∉ live := fun hin => h _ hin rfl
    simp [bitsetInit, hnot]
  le := Nat.le_of_eq (clear_bits_replicate _ _).symm
  front := ⟨0, by simp, by simp [bitsetInit], by simp [bitsetInit]⟩

/-- A node that counts a slot hands one out, and its surplus stays. -/
theorem DbQueryNodeInv.get (h : DbQueryNodeInv SIZE live fnp np) (hcount : np.fnCount ≠ 0) :
    ∃ idx < SIZE.size, ∃ set set', bitsetFirstZero SIZE np.fnFree = .ok (idx, set) ∧
      bitsetSet set idx = .ok set' ∧ (⟨fnp, ⟨fnp, idx⟩⟩ : DbQueryNodePtr) ∉ live ∧
      DbQueryNodeInv SIZE (⟨fnp, ⟨fnp, idx⟩⟩ :: live) fnp ⟨set', np.fnCount - 1⟩ ∧
      (clearBits set'.set SIZE.size).card + 1 = (clearBits np.fnFree.set SIZE.size).card := by
  obtain ⟨front, hle, hlast, hfront⟩ := h.front
  obtain ⟨idx, hidx, hfind, hclear⟩ := bitset_first_zero h.length hlast (by omega)
    (hfront front (by omega) (Nat.le_refl _))
  have hlt : idx < SIZE.size := by omega
  have hwords := bitset_size_words SIZE
  have hword : idx / 64 < np.fnFree.set.length := by
    rw [h.length]
    omega
  have hnot : (⟨fnp, ⟨fnp, idx⟩⟩ : DbQueryNodePtr) ∉ live := by
    rw [← h.slots idx hlt, hclear]
    exact Bool.false_ne_true
  have hcard := clear_bits_set hword hlt hclear
  have hset := bitset_set (b := { np.fnFree with last := idx / 64 }) hword
  refine ⟨idx, hlt, _, _, hfind, hset, hnot, ⟨?_, ?_, ?_, front + 1, ?_, ?_, ?_⟩, hcard⟩
  · rw [List.length_set]
    exact h.length
  · intro i hi
    rw [has_bit_set hword, Bool.or_eq_true, h.slots i hi]
    simp [or_comm]
  · have := h.le
    simp only
    omega
  · simp only
    omega
  · simp only
    omega
  · intro i hi hfr
    rw [has_bit_set hword, hfront i hi (by omega)]
    simp
    omega

/-- A slot put back is not counted. -/
theorem DbQueryNodeInv.put (h : DbQueryNodeInv SIZE live fnp np) {idx : Nat}
    (hidx : idx < SIZE.size) (hp : (⟨fnp, ⟨fnp, idx⟩⟩ : DbQueryNodePtr) ∈ live)
    (hnodup : live.Nodup) :
    ∃ set, bitsetClear np.fnFree idx = .ok set ∧
      DbQueryNodeInv SIZE (live.erase ⟨fnp, ⟨fnp, idx⟩⟩) fnp { np with fnFree := set } ∧
      np.fnCount < (clearBits set.set SIZE.size).card ∧ np.fnCount ≠ SIZE.size := by
  obtain ⟨front, hle, hlast, hfront⟩ := h.front
  have hset := (h.slots idx hidx).mpr hp
  have hbefore : idx < front := by
    by_contra hge
    rw [hfront idx hidx (by omega)] at hset
    exact Bool.false_ne_true hset
  have hwords := bitset_size_words SIZE
  have hword : idx / 64 < np.fnFree.set.length := by
    rw [h.length]
    omega
  have hcard := clear_bits_clear hword hidx hset
  have hcount := h.le
  refine ⟨_, bitset_clear hword, ⟨?_, ?_, ?_, front, hle, ?_, ?_⟩, ?_, ?_⟩
  · rw [List.length_set]
    exact h.length
  · intro i hi
    rw [has_bit_clear hword, Bool.and_eq_true, h.slots i hi, hnodup.mem_erase_iff]
    simp [and_comm]
  · simp only
    omega
  · simp only
    omega
  · intro i hi hfr
    rw [has_bit_clear hword, hfront i hi hfr]
    rfl
  · simp only
    omega
  · omega

theorem FreelistInv.count (h : FreelistInv SIZE fl live fnps) :
    ∀ x ∈ fnps.map FreeLink.fnList, ∃ b, freelistCount fl x = .ok b := by
  intro x hx
  obtain ⟨a, ha, rfl⟩ := List.mem_map.mp hx
  obtain ⟨np, hnp, -⟩ := h.nodes a (List.mem_range.mp (h.all.mem_iff.mp ha))
  exact ⟨np.fnCount != 0, by simp [freelistCount, hnp]⟩

/-- The list with one of its nodes, or a node that is on no list, moved to the front. -/
theorem FreelistInv.search (h : FreelistInv SIZE fl live fnps) :
    fl.links.search .freelist (freelistCount fl) .fuel (fl.nodes.length + 1)
      (fl.links.next .freelist) = .ok .freelist ∨
    ∃ fnp np, fnp ∈ fnps ∧ fl.node fnp = .ok np ∧ np.fnCount ≠ 0 ∧
      fl.links.search .freelist (freelistCount fl) .fuel (fl.nodes.length + 1)
        (fl.links.next .freelist) = .ok (.fnList fnp) := by
  have hlen : (fnps.map FreeLink.fnList).length < fl.nodes.length + 1 := by
    have hperm := h.all.length_eq
    rw [List.length_map]
    simp only [List.length_range] at hperm
    omega
  have htest : ∀ x ∈ fnps.map FreeLink.fnList,
      freelistCount fl x = .ok ((freelistCount fl x).toOption.getD false) := by
    intro x hx
    obtain ⟨b, hb⟩ := h.count x hx
    simp [hb, Except.toOption]
  rw [h.list.search htest hlen]
  cases hfind : (fnps.map FreeLink.fnList).find? _ with
  | none => exact Or.inl rfl
  | some x =>
    have hpass := List.find?_some hfind
    obtain ⟨a, ha, rfl⟩ := List.mem_map.mp (List.mem_of_find?_eq_some hfind)
    obtain ⟨np, hnp, -⟩ := h.nodes a (List.mem_range.mp (h.all.mem_iff.mp ha))
    refine Or.inr ⟨a, np, ha, hnp, ?_, rfl⟩
    simpa [freelistCount, hnp, Except.toOption] using hpass

theorem with_new_node : (fl.withNew SIZE).node fnp =
    if fnp = fl.nodes.length then .ok ⟨bitsetInit SIZE, SIZE.size⟩ else fl.node fnp := by
  by_cases he : fnp = fl.nodes.length
  · simp [Freelist.node, Freelist.withNew, he]
  · rw [if_neg he, Freelist.node, Freelist.node, Freelist.withNew]
    by_cases hlt : fnp < fl.nodes.length
    · rw [List.getElem?_append_left hlt]
    · rw [List.getElem?_append_right (by omega), List.getElem?_eq_none (by simp; omega),
        List.getElem?_eq_none (by omega)]

@[simp] theorem with_new_length : (fl.withNew SIZE).nodes.length = fl.nodes.length + 1 := by
  simp [Freelist.withNew]

/-- Without a node that has slots, a get takes a new one. -/
theorem FreelistInv.get_new (h : FreelistInv SIZE fl live fnps) (CACHE : Nat)
    (hsearch : fl.links.search .freelist (freelistCount fl) .fuel (fl.nodes.length + 1)
      (fl.links.next .freelist) = .ok .freelist) :
    freelistGet SIZE CACHE fl = dbQueryNodeGet SIZE (fl.withNew SIZE) fl.nodes.length := by
  simp [freelistGet, hsearch, dbQueryNodeRingEmpty, h.unused, dbQueryNodeNew, dbQueryNodeInit,
    Freelist.setNode, Links.init_rm, Freelist.withNew]

theorem freelist_get_found (CACHE : Nat)
    (hsearch : fl.links.search .freelist (freelistCount fl) .fuel (fl.nodes.length + 1)
      (fl.links.next .freelist) = .ok (.fnList fnp)) :
    freelistGet SIZE CACHE fl = dbQueryNodeGet SIZE (fl.toFront fnp) fnp := by
  simp [freelistGet, hsearch, Freelist.toFront]

theorem FreelistInv.with_new (h : FreelistInv SIZE fl live fnps) :
    FreelistInv SIZE (fl.withNew SIZE) live (fl.nodes.length :: fnps) where
  nodes := by
    intro a ha
    rw [with_new_length] at ha
    rw [with_new_node]
    by_cases he : a = fl.nodes.length
    · have howner : ∀ p ∈ live, p.pOwner ≠ a := by
        intro p hp
        have := (h.inside p hp).1
        omega
      exact ⟨_, if_pos he, db_query_node_inv_init howner⟩
    · rw [if_neg he]
      exact h.nodes a (by omega)
  list := by
    have hnew : FreeLink.fnList fl.nodes.length ∉ FreeLink.freelist :: fnps.map .fnList := by
      simp [h.all.mem_iff]
    exact (h.list.init_other hnew).addAfter hnew
  all := by
    rw [with_new_length, List.range_succ]
    exact (h.all.cons _).trans (List.perm_append_singleton _ _).symm
  unused := h.unused
  inside := by
    intro p hp
    obtain ⟨hlt, hin⟩ := h.inside p hp
    rw [with_new_length]
    exact ⟨Nat.lt_succ_of_lt hlt, hin⟩
  nodup := h.nodup

theorem FreelistInv.to_front (h : FreelistInv SIZE fl live fnps) (hmem : fnp ∈ fnps) :
    FreelistInv SIZE (fl.toFront fnp) live (fnp :: fnps.erase fnp) where
  nodes := h.nodes
  list := by
    have hring := h.list.rm (List.mem_map_of_mem hmem)
    rw [← List.map_erase (fun _ _ he => FreeLink.fnList.inj he)] at hring
    have hout : FreeLink.fnList fnp ∉ FreeLink.freelist :: (fnps.erase fnp).map .fnList := by
      have hnodup := h.all.nodup_iff.mpr List.nodup_range
      simp [hnodup.mem_erase_iff]
    exact hring.addAfter hout
  all := (List.perm_cons_erase hmem).symm.trans h.all
  unused := h.unused
  inside := h.inside
  nodup := h.nodup

theorem counted_with_new : Counted SIZE (fl.withNew SIZE) ↔ Counted SIZE fl := by
  constructor
  · intro hall a na ha
    refine hall a na ?_
    rw [with_new_node, if_neg (Nat.ne_of_lt (freelist_node_lt ha)), ha]
  · intro hall a na ha
    rw [with_new_node] at ha
    split at ha
    · cases ha
      exact (clear_bits_replicate _ _).symm
    · exact hall a na ha

/-- freelist_get up to its node_get: a node with a count, now first on the list. -/
theorem FreelistInv.pick (h : FreelistInv SIZE fl live fnps) (CACHE : Nat) :
    ∃ fl' fnps' fnp np, freelistGet SIZE CACHE fl = dbQueryNodeGet SIZE fl' fnp ∧
      FreelistInv SIZE fl' live fnps' ∧ fl'.node fnp = .ok np ∧ np.fnCount ≠ 0 ∧
      (Counted SIZE fl' ↔ Counted SIZE fl) := by
  rcases h.search with hsearch | ⟨fnp, np, hmem, hnp, hcount, hsearch⟩
  · have hsize : SIZE.size ≠ 0 := by
      have hwords := bitset_size_words SIZE
      have := SIZE.words
      omega
    refine ⟨_, _, _, ⟨bitsetInit SIZE, SIZE.size⟩, h.get_new CACHE hsearch, h.with_new, ?_, hsize,
      counted_with_new⟩
    rw [with_new_node, if_pos rfl]
  · exact ⟨_, _, fnp, np, freelist_get_found CACHE hsearch, h.to_front hmem, hnp, hcount, Iff.rfl⟩

/-- What holds of every node holds again when one of them and the pointers
into it change. -/
theorem FreelistInv.set_node (h : FreelistInv SIZE fl live fnps) (hnp : fl.node fnp = .ok np)
    (hinv : DbQueryNodeInv SIZE live' fnp np')
    (hother : ∀ p : DbQueryNodePtr, p.pOwner ≠ fnp → (p ∈ live' ↔ p ∈ live))
    (hinside : ∀ p ∈ live', p.pOwner = fnp → p.pPtr.node = p.pOwner ∧ p.pPtr.idx < SIZE.size)
    (hnodup : live'.Nodup) : FreelistInv SIZE (fl.setNode fnp np') live' fnps where
  nodes := by
    intro a ha
    rw [set_node_length] at ha
    by_cases he : a = fnp
    · rw [he]
      exact ⟨np', set_node_same (freelist_node_lt hnp), hinv⟩
    · obtain ⟨na, hna, hold⟩ := h.nodes a ha
      exact ⟨na, (set_node_other he).trans hna, hold.congr (fun i => hother _ he)⟩
  list := h.list
  all := by
    rw [set_node_length]
    exact h.all
  unused := h.unused
  inside := by
    intro p hp
    rw [set_node_length]
    by_cases he : p.pOwner = fnp
    · exact ⟨he ▸ freelist_node_lt hnp, hinside p hp he⟩
    · exact h.inside p ((hother p he).mp hp)
  nodup := hnodup

theorem FreelistInv.get (h : FreelistInv SIZE fl live fnps) (CACHE : Nat) :
    ∃ fl' fnps' p, freelistGet SIZE CACHE fl = .ok (fl', p) ∧
      FreelistInv SIZE fl' (p :: live) fnps' ∧ (Counted SIZE fl' ↔ Counted SIZE fl) := by
  obtain ⟨fl₁, fnps₁, fnp, np, hrun, hinv, hnp, hcount, hsame⟩ := h.pick CACHE
  obtain ⟨np₁, hnp₁, hnode⟩ := hinv.nodes fnp (freelist_node_lt hnp)
  rw [hnp] at hnp₁
  cases hnp₁
  obtain ⟨idx, hidx, set, set', hfind, hset, hnot, hnode', hcard⟩ := hnode.get hcount
  refine ⟨fl₁.setNode fnp ⟨set', np.fnCount - 1⟩, fnps₁, ⟨fnp, ⟨fnp, idx⟩⟩, ?_, ?_, ?_⟩
  · rw [hrun]
    simp [dbQueryNodeGet, hnp, hfind, hset, size_dec_ne_zero hcount]
  · refine hinv.set_node hnp hnode' ?_ ?_ (List.nodup_cons.mpr ⟨hnot, h.nodup⟩)
    · intro p hp
      rw [List.mem_cons]
      exact or_iff_right (fun he => hp (by rw [he]))
    · intro p hp _
      rcases List.mem_cons.mp hp with rfl | hp
      · exact ⟨rfl, hidx⟩
      · exact (h.inside p hp).2
  · rw [counted_set_node hnp ?_]
    · exact hsame
    · simp only
      omega

theorem FreelistInv.put (h : FreelistInv SIZE fl live fnps) (hp : p ∈ live) (CACHE : Nat) :
    ∃ fl', freelistPut SIZE CACHE fl p = .ok fl' ∧ FreelistInv SIZE fl' (live.erase p) fnps ∧
      ¬ Counted SIZE fl' := by
  obtain ⟨hlt, hpool, hidx⟩ := h.inside p hp
  obtain ⟨fnp, node, idx⟩ := p
  cases hpool
  simp only at hlt hidx
  obtain ⟨np, hnp, hnode⟩ := h.nodes fnp hlt
  obtain ⟨set, hclear, hnode', hcount, hsize⟩ := hnode.put hidx hp h.nodup
  refine ⟨fl.setNode fnp { np with fnFree := set }, ?_, ?_, ?_⟩
  · simp [freelistPut, dbQueryNodePtrFree, dbQueryNodePut, hnp, hclear,
      set_node_same (freelist_node_lt hnp), hsize]
  · refine h.set_node hnp hnode' ?_ ?_ (h.nodup.erase _)
    · intro p hp
      exact List.mem_erase_of_ne (fun he => hp (by rw [he]))
    · intro p hp _
      exact (h.inside p (List.mem_of_mem_erase hp)).2
  · intro hall
    exact Nat.ne_of_lt hcount (hall fnp _ (set_node_same (freelist_node_lt hnp)))

theorem freelist_inv_start : FreelistInv SIZE (freelistStart CACHE) [] [] where
  nodes := by simp [freelistStart]
  list := ⟨⟨rfl, rfl⟩, List.nodup_singleton _⟩
  all := List.Perm.refl _
  unused := rfl
  inside := by simp
  nodup := List.nodup_nil

theorem freelist_runs_inv {ops : List FreelistOp} (h : FreelistRuns SIZE CACHE ops fl live) :
    ∃ fnps, FreelistInv SIZE fl live fnps ∧ (Counted SIZE fl ↔ FreelistOp.put ∉ ops) := by
  induction h with
  | start =>
    refine ⟨[], freelist_inv_start, ?_⟩
    simp [Counted, Freelist.node, freelistStart]
  | @get ops fl fl' live p run call ih =>
    obtain ⟨fnps, hinv, hcounted⟩ := ih
    obtain ⟨fl₁, fnps₁, p₁, hrun, hinv₁, hsame⟩ := hinv.get CACHE
    rw [hrun] at call
    cases call
    exact ⟨fnps₁, hinv₁, hsame.trans (hcounted.trans (by simp))⟩
  | @put ops fl fl' live p run owned call ih =>
    obtain ⟨fnps, hinv, -⟩ := ih
    obtain ⟨fl₁, hrun, hinv₁, hnot⟩ := hinv.put owned CACHE
    rw [hrun] at call
    cases call
    exact ⟨fnps, hinv₁, by simp [hnot]⟩

/-- All but the counts is right after any run. -/
theorem FreelistInv.accounted (h : FreelistInv SIZE fl live fnps) :
    Accounted SIZE CACHE fl live ↔ Counted SIZE fl := by
  refine ⟨fun hacc => hacc.count, fun hcount => ⟨hcount, ?_, ?_, ?_, ?_⟩⟩
  · intro fnp np hnp i hi
    obtain ⟨np', hnp', hnode⟩ := h.nodes fnp (freelist_node_lt hnp)
    rw [hnp] at hnp'
    cases hnp'
    rw [hnode.slots i hi]
    constructor
    · intro hin
      exact ⟨_, hin, rfl, rfl⟩
    · intro hin
      obtain ⟨⟨owner, ptr⟩, hin, howner, hptr⟩ := hin
      simp only at howner hptr
      rwa [howner, hptr] at hin
  · refine List.Nodup.map_on ?_ h.nodup
    intro p hp q hq he
    obtain ⟨fnp, ptr⟩ := p
    have hnode := congrArg PoolPtr.node he
    have howner := (h.inside _ hp).2.1.symm.trans (hnode.trans (h.inside _ hq).2.1)
    cases q
    cases he
    cases howner
    rfl
  · intro p hp
    obtain ⟨hlt, hin⟩ := h.inside p hp
    obtain ⟨np, hnp, -⟩ := h.nodes _ hlt
    exact ⟨⟨np, hnp⟩, hin⟩
  · intro fnp np hnp _
    refine Or.inl ⟨⟨fnps, h.list, ?_⟩, ?_⟩
    · exact h.all.mem_iff.mpr (List.mem_range.mpr (freelist_node_lt hnp))
    · intro hring
      obtain ⟨k, hk, -⟩ := hring
      rw [h.unused] at hk
      exact Nat.not_lt_zero k hk

/-- Every get and every put of a live pointer returns, and all is accounted for
exactly until the first put. -/
theorem freelist_accounted_iff {ops : List FreelistOp} (h : FreelistRuns SIZE CACHE ops fl live) :
    (∃ r, freelistGet SIZE CACHE fl = .ok r) ∧
    (∀ p ∈ live, ∃ fl', freelistPut SIZE CACHE fl p = .ok fl') ∧
    (Accounted SIZE CACHE fl live ↔ FreelistOp.put ∉ ops) := by
  obtain ⟨fnps, hinv, hcounted⟩ := freelist_runs_inv h
  refine ⟨?_, ?_, hinv.accounted.trans hcounted⟩
  · obtain ⟨fl', -, p, hrun, -⟩ := hinv.get CACHE
    exact ⟨_, hrun⟩
  · intro p hp
    obtain ⟨fl', hrun, -⟩ := hinv.put hp CACHE
    exact ⟨fl', hrun⟩

end

/-- A get, its put and a get again: all calls return, and the counts are off. -/
theorem freelist_accounted_again : ∃ fl p,
    FreelistRuns POOL_SIZE HOLD_OFF_CACHE_SIZE [.get, .put, .get] fl [p] ∧
    (∃ r, freelistGet POOL_SIZE HOLD_OFF_CACHE_SIZE fl = .ok r) ∧
    (∃ fl', freelistPut POOL_SIZE HOLD_OFF_CACHE_SIZE fl p = .ok fl') ∧
    ¬ Accounted POOL_SIZE HOLD_OFF_CACHE_SIZE fl [p] := by
  have hstart : FreelistInv POOL_SIZE (freelistStart HOLD_OFF_CACHE_SIZE) [] [] :=
    freelist_inv_start
  obtain ⟨fl₁, fnps₁, q, hget, hinv₁, -⟩ := hstart.get HOLD_OFF_CACHE_SIZE
  have howned := List.mem_singleton_self q
  obtain ⟨fl₂, hput, hinv₂, -⟩ := hinv₁.put howned HOLD_OFF_CACHE_SIZE
  rw [List.erase_cons_head] at hinv₂
  obtain ⟨fl, -, p, hagain, -⟩ := hinv₂.get HOLD_OFF_CACHE_SIZE
  have hrun := FreelistRuns.put (.get .start hget) howned hput
  rw [List.erase_cons_head] at hrun
  have hruns := FreelistRuns.get hrun hagain
  obtain ⟨hnext, hlive, hcounts⟩ := freelist_accounted_iff hruns
  refine ⟨fl, p, hruns, hnext, hlive p (List.mem_singleton_self p), fun hacc => ?_⟩
  exact hcounts.mp hacc (List.mem_cons_of_mem _ List.mem_cons_self)

/-- One slot handed out and put back: its node is all clear, and counts one slot less. -/
theorem freelist_put_uncounted : ∃ fl,
    FreelistRuns POOL_SIZE HOLD_OFF_CACHE_SIZE [.put, .get] fl [] ∧
    ¬ Accounted POOL_SIZE HOLD_OFF_CACHE_SIZE fl [] := by
  have hstart : FreelistInv POOL_SIZE (freelistStart HOLD_OFF_CACHE_SIZE) [] [] :=
    freelist_inv_start
  obtain ⟨fl, fnps, p, hget, hinv, -⟩ := hstart.get HOLD_OFF_CACHE_SIZE
  have howned := List.mem_singleton_self p
  obtain ⟨fl', hput, -, hnot⟩ := hinv.put howned HOLD_OFF_CACHE_SIZE
  have hrun := FreelistRuns.put (.get .start hget) howned hput
  rw [List.erase_cons_head] at hrun
  exact ⟨fl', hrun, fun hacc => hnot hacc.count⟩

end Mepl
