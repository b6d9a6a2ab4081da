import Mepl.Alloc.FreelistRuns
import Mepl.C.Chars

namespace Mepl
open Base

/-- The variables of main. The pointers on its list are named from list.next on. -/
structure FreeMain where
  fl : Freelist
  list : List DbQueryNodePtr
  sum : Nat
  nAlloc : Nat

namespace FreeMain

section
variable (POOL_SIZE : BitsetSize) (HOLD_OFF_CACHE_SIZE : Nat)

def start : FreeMain := ⟨freelistStart HOLD_OFF_CACHE_SIZE, [], 0, 0⟩

/-- freelist_get with its counters: sum goes up at every node it looks at. -/
def get (s : FreeMain) : Res FreeMain := do
  let seen ← s.fl.links.searched .freelist (freelistCount s.fl) .fuel (s.fl.nodes.length + 1)
    (s.fl.links.next .freelist)
  let (fl, p) ← freelistGet POOL_SIZE HOLD_OFF_CACHE_SIZE s.fl
  pure { fl, list := p :: s.list, sum := s.sum + seen.length, nAlloc := s.nAlloc + 1 }

/-- A round of the loop of main, where even is `(rand() % 2) == 0`. -/
def round (s : FreeMain) (even : Bool) : Res FreeMain :=
  if even then s.get POOL_SIZE HOLD_OFF_CACHE_SIZE
  else match s.list with
    | [] => pure s
    | p :: list => do
      let fl ← freelistPut POOL_SIZE HOLD_OFF_CACHE_SIZE s.fl p
      pure { s with fl, list }

/-- main from its LIST_FOR_EACH_SAFE on. -/
def finish (s : FreeMain) : Res (Freelist × List Byte) := do
  let fl ← s.list.foldlM (freelistPut POOL_SIZE HOLD_OFF_CACHE_SIZE) s.fl
  if s.nAlloc = 0 then .error .fault
  else
    let avg := chars (toString (s.sum / s.nAlloc))
    pure (fl, chars "average allocation time = " ++ avg ++ chars "\n")

/-- main, where the rounds are as many as argv[1] says. -/
def main (rounds : List Bool) : Res (Freelist × List Byte) := do
  let s ← rounds.foldlM (round POOL_SIZE HOLD_OFF_CACHE_SIZE) (start HOLD_OFF_CACHE_SIZE)
  s.finish POOL_SIZE HOLD_OFF_CACHE_SIZE

end

end FreeMain

/-- The node says that it can serve c gets more. -/
def HasCount (fl : Freelist) (fnp c : Nat) : Prop := ∃ np, fl.node fnp = .ok np ∧ np.fnCount = c

/-- What is left of the nodes after some gets: left slots in the first one, and
nothing in the others, whatever was put back. -/
structure SlotsLeft (SIZE : BitsetSize) (fl : Freelist) (fnps : List Nat) (gets left : Nat) :
    Prop where
  total : gets + left = SIZE.size * fnps.length
  below : left < SIZE.size
  first : ∀ fnp ∈ fnps.head?, HasCount fl fnp left
  spent : ∀ fnp ∈ fnps.tail, HasCount fl fnp 0

section
variable {SIZE : BitsetSize} {CACHE gets left fnp a c : Nat} {fl fl' : Freelist}
  {live : List DbQueryNodePtr} {fnps : List Nat} {np : DbQueryNode} {p : DbQueryNodePtr}

theorem HasCount.set_same (h : fnp < fl.nodes.length) :
    HasCount (fl.setNode fnp np) fnp np.fnCount :=
  ⟨np, set_node_same h, rfl⟩

theorem HasCount.set_other (h : HasCount fl a c) (hne : a ≠ fnp) :
    HasCount (fl.setNode fnp np) a c := by
  obtain ⟨na, hna, hc⟩ := h
  exact ⟨na, (set_node_other hne).trans hna, hc⟩

theorem HasCount.count (h : HasCount fl fnp c) :
    freelistCount fl (.fnList fnp) = .ok (c != 0) := by
  obtain ⟨np, hnp, rfl⟩ := h
  simp [freelistCount, hnp]

theorem HasCount.unique {d : Nat} (h : HasCount fl fnp c) (h' : HasCount fl fnp d) : c = d := by
  obtain ⟨np, hnp, rfl⟩ := h
  obtain ⟨np', hnp', rfl⟩ := h'
  cases hnp.symm.trans hnp'
  rfl

theorem db_query_node_get_ok (h : dbQueryNodeGet SIZE fl fnp = .ok (fl', p))
    (hc : HasCount fl fnp c) (hne : c ≠ 0) :
    ∃ np set, fl.node fnp = .ok np ∧ fl' = fl.setNode fnp ⟨set, np.fnCount - 1⟩ := by
  simp only [dbQueryNodeGet, bind_ok] at h
  obtain ⟨np, hnp, ⟨idx, b⟩, -, set, -, h⟩ := h
  cases h
  have hcount : np.fnCount ≠ 0 := by
    rwa [HasCount.unique ⟨np, hnp, rfl⟩ hc]
  exact ⟨np, set, hnp, by rw [size_dec_ne_zero hcount]⟩

theorem freelist_put_ok (h : freelistPut SIZE CACHE fl p = .ok fl') (hc : HasCount fl p.pOwner c)
    (hne : c ≠ SIZE.size) : ∃ np, fl' = fl.setNode p.pOwner np ∧ np.fnCount = c := by
  obtain ⟨np, hnp, rfl⟩ := hc
  simp only [freelistPut, dbQueryNodePtrFree, dbQueryNodePut, hnp, ok_bind] at h
  split at h
  · simp only [bind_ok] at h
    obtain ⟨fl₁, ⟨set, -, h₁⟩, np₁, hnp₁, h⟩ := h
    cases h₁
    rw [set_node_same (freelist_node_lt hnp)] at hnp₁
    cases hnp₁
    rw [if_pos hne] at h
    cases h
    exact ⟨_, rfl, rfl⟩
  · rw [error_bind] at h
    cases h

theorem FreelistInv.same_list {fnps' : List Nat} (h : FreelistInv SIZE fl live fnps)
    (hlist : fl.links.Ring .freelist (fnps'.map .fnList)) : fnps = fnps' :=
  List.map_injective_iff.mpr (fun _ _ he => FreeLink.fnList.inj he) (h.list.unique hlist)

/-- What the search finds when the first node has slots left: that node. -/
theorem SlotsLeft.search_first (h : FreelistInv SIZE fl live (a :: fnps))
    (hc : HasCount fl a left) (hleft : left ≠ 0) :
    fl.links.search .freelist (freelistCount fl) .fuel (fl.nodes.length + 1)
      (fl.links.next .freelist) = .ok (.fnList a) ∧
    fl.links.searched .freelist (freelistCount fl) .fuel (fl.nodes.length + 1)
      (fl.links.next .freelist) = .ok [.fnList a] := by
  have htest : freelistCount fl (.fnList a) = .ok true := by
    rw [hc.count]
    simpa using hleft
  have hnext : fl.links.next .freelist = .fnList a := h.list.path.1
  rw [hnext]
  constructor
  · simp [Links.search, htest]
  · simp [Links.searched, htest]

/-- When no node has slots left the search looks at all of them. -/
theorem SlotsLeft.search_spent (h : FreelistInv SIZE fl live fnps)
    (hspent : ∀ fnp ∈ fnps, HasCount fl fnp 0) :
    fl.links.search .freelist (freelistCount fl) .fuel (fl.nodes.length + 1)
      (fl.links.next .freelist) = .ok .freelist ∧
    fl.links.searched .freelist (freelistCount fl) .fuel (fl.nodes.length + 1)
      (fl.links.next .freelist) = .ok (fnps.map .fnList) := by
  have htest : ∀ x ∈ fnps.map FreeLink.fnList, freelistCount fl x = .ok ((fun _ => false) x) := by
    intro x hx
    obtain ⟨fnp, hfnp, rfl⟩ := List.mem_map.mp hx
    exact (hspent fnp hfnp).count
  have hfuel : (fnps.map FreeLink.fnList).length < fl.nodes.length + 1 := by
    have hperm := h.all.length_eq
    rw [List.length_range] at hperm
    rw [List.length_map]
    omega
  constructor
  · rw [h.list.search htest hfuel, List.find?_eq_none.mpr (by simp)]
    rfl
  · rw [h.list.searched htest hfuel, List.take_of_length_le]
    rw [List.findIdx_eq_length_of_false (by simp)]
    omega

theorem SlotsLeft.length_eq (h : SlotsLeft SIZE fl fnps gets left) :
    fnps.length = (gets + SIZE.size - 1) / SIZE.size := by
  have htotal := h.total
  have hbelow := h.below
  have hlast : gets + SIZE.size - 1 = SIZE.size - 1 - left + fnps.length * SIZE.size := by
    rw [Nat.mul_comm]
    omega
  rw [hlast, Nat.add_mul_div_right _ _ (by omega), Nat.div_eq_of_lt (by omega), Nat.zero_add]

/-- A get is served by the node that was served last, or by a new one. -/
theorem SlotsLeft.get (hs : SlotsLeft SIZE fl fnps gets left) (h : FreelistInv SIZE fl live fnps)
    (CACHE : Nat) : ∃ fl' p seen fnps' left', freelistGet SIZE CACHE fl = .ok (fl', p) ∧
      fl.links.searched .freelist (freelistCount fl) .fuel (fl.nodes.length + 1)
        (fl.links.next .freelist) = .ok seen ∧
      FreelistInv SIZE fl' (p :: live) fnps' ∧ SlotsLeft SIZE fl' fnps' (gets + 1) left' ∧
      (seen.length = 1 ∧ fnps'.length = fnps.length ∨
        seen.length = fnps.length ∧ fnps'.length = fnps.length + 1) := by
  obtain ⟨fl', fnps', p, hrun, hinv, -⟩ := h.get CACHE
  have htotal := hs.total
  have hbelow := hs.below
  by_cases hleft : left = 0
  · subst hleft
    have hspent : ∀ fnp ∈ fnps, HasCount fl fnp 0 := by
      intro fnp hfnp
      cases fnps with
      | nil => cases hfnp
      | cons a fnps =>
        rcases List.mem_cons.mp hfnp with rfl | hfnp
        · exact hs.first fnp rfl
        · exact hs.spent fnp hfnp
    obtain ⟨hsearch, hseen⟩ := SlotsLeft.search_spent h hspent
    -- a new node, with all slots but one
    have hget := h.get_new CACHE hsearch
    have hsize : SIZE.size ≠ 0 := by omega
    obtain ⟨np, set, hnp, rfl⟩ := db_query_node_get_ok (hget.symm.trans hrun)
      ⟨_, by rw [with_new_node, if_pos rfl], rfl⟩ hsize
    obtain rfl : fnps' = fl.nodes.length :: fnps := hinv.same_list h.with_new.list
    rw [with_new_node, if_pos rfl] at hnp
    cases hnp
    refine ⟨_, p, _, _, SIZE.size - 1, hrun, hseen, hinv, ⟨?_, by omega, ?_, ?_⟩, Or.inr ?_⟩
    · rw [List.length_cons, Nat.mul_add]
      omega
    · rintro fnp hfnp
      cases hfnp
      exact .set_same (by simp)
    · intro fnp hfnp
      have hlt := List.mem_range.mp (h.all.mem_iff.mp hfnp)
      obtain ⟨na, hna, hzero⟩ := hspent fnp hfnp
      refine HasCount.set_other ⟨na, ?_, hzero⟩ (Nat.ne_of_lt hlt)
      rw [with_new_node, if_neg (Nat.ne_of_lt hlt), hna]
    · exact ⟨List.length_map _, rfl⟩
  · obtain ⟨a, rest, rfl⟩ : ∃ a rest, fnps = a :: rest := by
      cases fnps with
      | nil =>
        rw [List.length_nil] at htotal
        omega
      | cons a rest => exact ⟨a, rest, rfl⟩
    have hfirst := hs.first a rfl
    obtain ⟨hsearch, hseen⟩ := SlotsLeft.search_first h hfirst hleft
    -- the first node, taken out and put in again
    have hget : freelistGet SIZE CACHE fl = _ := freelist_get_found CACHE hsearch
    have hlist := (h.to_front List.mem_cons_self).list
    rw [List.erase_cons_head] at hlist
    have hnodup := h.all.nodup_iff.mpr List.nodup_range
    obtain ⟨np, set, hnp, rfl⟩ := db_query_node_get_ok (hget.symm.trans hrun) hfirst hleft
    obtain rfl : fnps' = a :: rest := hinv.same_list hlist
    have hlt := List.mem_range.mp (h.all.mem_iff.mp List.mem_cons_self)
    obtain ⟨np', hnp', hcount⟩ := hfirst
    obtain rfl : np' = np := Except.ok.inj (hnp'.symm.trans hnp)
    refine ⟨_, p, _, _, left - 1, hrun, hseen, hinv, ⟨by omega, by omega, ?_, ?_⟩,
      Or.inl ⟨rfl, rfl⟩⟩
    · rintro fnp hfnp
      cases hfnp
      rw [← hcount]
      exact .set_same hlt
    · intro fnp hfnp
      have hne : fnp ≠ a := fun he => (List.nodup_cons.mp hnodup).1 (he ▸ hfnp)
      obtain ⟨na, hna, hzero⟩ := hs.spent fnp hfnp
      exact HasCount.set_other ⟨na, hna, hzero⟩ hne

/-- A put changes no count, and leaves every node where it is. -/
theorem SlotsLeft.put (hs : SlotsLeft SIZE fl fnps gets left) (h : FreelistInv SIZE fl live fnps)
    (hp : p ∈ live) (CACHE : Nat) : ∃ fl', freelistPut SIZE CACHE fl p = .ok fl' ∧
      FreelistInv SIZE fl' (live.erase p) fnps ∧ SlotsLeft SIZE fl' fnps gets left := by
  obtain ⟨fl', hrun, hinv, -⟩ := h.put hp CACHE
  have hcount : ∀ fnp ∈ fnps, ∃ c, HasCount fl fnp c ∧ c ≠ SIZE.size := by
    intro fnp hfnp
    have hbelow := hs.below
    cases fnps with
    | nil => cases hfnp
    | cons a rest =>
      rcases List.mem_cons.mp hfnp with rfl | hfnp
      · exact ⟨left, hs.first fnp rfl, by omega⟩
      · exact ⟨0, hs.spent fnp hfnp, by omega⟩
  have hlt := (h.inside p hp).1
  obtain ⟨c, hc, hne⟩ := hcount p.pOwner (h.all.mem_iff.mpr (List.mem_range.mpr hlt))
  obtain ⟨np, rfl, hsame⟩ := freelist_put_ok hrun hc hne
  have hkeep : ∀ fnp d, HasCount fl fnp d → HasCount (fl.setNode p.pOwner np) fnp d := by
    intro fnp d hd
    by_cases he : fnp = p.pOwner
    · subst he
      rw [hd.unique hc, ← hsame]
      exact .set_same hlt
    · exact hd.set_other he
  exact ⟨_, hrun, hinv, hs.total, hs.below, fun fnp hfnp => hkeep fnp left (hs.first fnp hfnp),
    fun fnp hfnp => hkeep fnp 0 (hs.spent fnp hfnp)⟩

theorem slots_left_start : SlotsLeft SIZE (freelistStart CACHE) [] 0 0 where
  total := rfl
  below := by
    have hwords := bitset_size_words SIZE
    have hpos := SIZE.words
    omega
  first := by simp
  spent := by simp

/-- In every run, of any gets and puts of live pointers, the nodes allocated are
those that the gets alone call for, as a put is never counted, and none of them
is ever given back. -/
theorem freelist_never_recycles {ops : List FreelistOp} (h : FreelistRuns SIZE CACHE ops fl live) :
    fl.nodes.length = (ops.count .get + SIZE.size - 1) / SIZE.size ∧
      ∀ fnp < fl.nodes.length, ∃ np, fl.node fnp = .ok np := by
  obtain ⟨fnps, left, hinv, hs⟩ : ∃ fnps left, FreelistInv SIZE fl live fnps ∧
      SlotsLeft SIZE fl fnps (ops.count .get) left := by
    induction h with
    | start => exact ⟨[], 0, freelist_inv_start, slots_left_start⟩
    | get run call ih =>
      obtain ⟨fnps, left, hinv, hs⟩ := ih
      obtain ⟨fl₁, p₁, -, fnps₁, left₁, hrun, -, hinv₁, hs₁, -⟩ := hs.get hinv CACHE
      cases call.symm.trans hrun
      rw [List.count_cons_self]
      exact ⟨fnps₁, left₁, hinv₁, hs₁⟩
    | put run owned call ih =>
      obtain ⟨fnps, left, hinv, hs⟩ := ih
      obtain ⟨fl₁, hrun, hinv₁, hs₁⟩ := hs.put hinv owned CACHE
      cases call.symm.trans hrun
      rw [List.count_cons_of_ne (by decide)]
      exact ⟨fnps, left, hinv₁, hs₁⟩
  refine ⟨?_, fun fnp hlt => ?_⟩
  · rw [← hs.length_eq, hinv.all.length_eq, List.length_range]
  · obtain ⟨np, hnp, -⟩ := hinv.nodes fnp hlt
    exact ⟨np, hnp⟩

/-- main between two rounds. -/
structure FreeMain.Ok (SIZE : BitsetSize) (s : FreeMain) (fnps : List Nat) (gets left : Nat) :
    Prop where
  inv : FreelistInv SIZE s.fl s.list fnps
  slots : SlotsLeft SIZE s.fl fnps gets left
  nAlloc : s.nAlloc = gets
  sum : 2 * s.sum + 3 * fnps.length = 2 * gets + fnps.length * fnps.length

theorem FreeMain.Ok.round {s : FreeMain} (h : s.Ok SIZE fnps gets left) (CACHE : Nat)
    (even : Bool) : ∃ s' fnps' left', s.round SIZE CACHE even = .ok s' ∧
      s'.Ok SIZE fnps' (gets + [even].count true) left' := by
  have hsum := h.sum
  cases even with
  | true =>
    obtain ⟨fl', p, seen, fnps', left', hrun, hseen, hinv, hs, hcost⟩ := h.slots.get h.inv CACHE
    refine ⟨⟨fl', p :: s.list, s.sum + seen.length, s.nAlloc + 1⟩, fnps', left', ?_, hinv, hs,
      congrArg (· + 1) h.nAlloc, ?_⟩
    · simp [FreeMain.round, FreeMain.get, hseen, hrun]
    · simp only [List.count_cons_self, List.count_nil]
      rcases hcost with ⟨hone, hsame⟩ | ⟨hall, hmore⟩
      · rw [hone, hsame]
        omega
      · have hsquare : (fnps.length + 1) * (fnps.length + 1) =
            fnps.length * fnps.length + 2 * fnps.length + 1 := by
          rw [Nat.mul_add, Nat.add_mul]
          omega
        rw [hall, hmore, hsquare]
        omega
  | false =>
    obtain ⟨fl, list, sum, nAlloc⟩ := s
    cases list with
    | nil => exact ⟨_, fnps, left, rfl, h⟩
    | cons p list =>
      obtain ⟨fl', hrun, hinv, hs⟩ := h.slots.put h.inv List.mem_cons_self CACHE
      rw [List.erase_cons_head] at hinv
      refine ⟨⟨fl', list, sum, nAlloc⟩, fnps, left, ?_, hinv, hs, h.nAlloc, hsum⟩
      have hput : freelistPut SIZE CACHE fl p = .ok fl' := hrun
      simp [FreeMain.round, hput]

def FreeMain.Runs (SIZE : BitsetSize) (s : FreeMain) (rounds : List Bool) : Prop :=
  ∃ fnps left, s.Ok SIZE fnps (rounds.count true) left

theorem FreeMain.Runs.start : (FreeMain.start CACHE).Runs SIZE [] :=
  ⟨[], 0, freelist_inv_start, slots_left_start, rfl, rfl⟩

theorem FreeMain.Runs.round {s : FreeMain} {rounds : List Bool} (even : Bool)
    (h : s.Runs SIZE rounds) :
    ∃ s', s.round SIZE CACHE even = .ok s' ∧ s'.Runs SIZE (rounds ++ [even]) := by
  obtain ⟨fnps, left, h⟩ := h
  obtain ⟨s', fnps', left', hround, h'⟩ := h.round CACHE even
  rw [← List.count_append] at h'
  exact ⟨s', hround, fnps', left', h'⟩

/-- At the end of main everything is put back. -/
theorem SlotsLeft.puts (hs : SlotsLeft SIZE fl fnps gets left) (h : FreelistInv SIZE fl live fnps)
    (CACHE : Nat) : ∃ fl', live.foldlM (freelistPut SIZE CACHE) fl = .ok fl' ∧
      FreelistInv SIZE fl' [] fnps := by
  induction live generalizing fl with
  | nil => exact ⟨fl, rfl, h⟩
  | cons p live ih =>
    obtain ⟨fl₁, hrun, hinv, hs₁⟩ := hs.put h List.mem_cons_self CACHE
    rw [List.erase_cons_head] at hinv
    obtain ⟨fl', hrest, hinv'⟩ := ih hs₁ hinv
    refine ⟨fl', ?_, hinv'⟩
    rw [List.foldlM_cons, hrun]
    exact hrest

/-- main on any outcomes of rand(). Without a get it divides by zero. With any,
it ends with all of the nodes that the gets called for still allocated, and
what it prints depends on the number of gets alone: each looked at one node,
but for those that met a full list and walked all of it. -/
theorem free_main_average (SIZE : BitsetSize) (CACHE : Nat) (rounds : List Bool) :
    (rounds.count true = 0 → FreeMain.main SIZE CACHE rounds = .error .fault) ∧
    (0 < rounds.count true → ∃ fl sum, FreeMain.main SIZE CACHE rounds =
        .ok (fl, chars "average allocation time = " ++
          chars (toString (sum / rounds.count true)) ++ chars "\n") ∧
      (∀ fnp < fl.nodes.length, ∃ np, fl.node fnp = .ok np) ∧
      fl.nodes.length = (rounds.count true + SIZE.size - 1) / SIZE.size ∧
      2 * sum + 3 * fl.nodes.length =
        2 * rounds.count true + fl.nodes.length * fl.nodes.length) := by
  obtain ⟨s, hrun, fnps, left, h⟩ :=
    fold_keeps (fun even h => FreeMain.Runs.round even h) rounds .start
  rw [List.nil_append] at h
  obtain ⟨fl, hputs, hinv⟩ := h.slots.puts h.inv CACHE
  have hmain : FreeMain.main SIZE CACHE rounds = s.finish SIZE CACHE := by
    rw [FreeMain.main, hrun, ok_bind]
  have hlen : fl.nodes.length = fnps.length := by
    rw [hinv.all.length_eq, List.length_range]
  refine ⟨fun hzero => ?_, fun hpos => ⟨fl, s.sum, ?_, fun fnp hlt => ?_, ?_, ?_⟩⟩
  · rw [hmain, FreeMain.finish, hputs, ok_bind, if_pos (h.nAlloc.trans hzero)]
  · have hne : s.nAlloc ≠ 0 := h.nAlloc ▸ Nat.ne_of_gt hpos
    rw [hmain, FreeMain.finish, hputs, ok_bind, if_neg hne, h.nAlloc]
    rfl
  · obtain ⟨np, hnp, -⟩ := hinv.nodes fnp hlt
    exact ⟨np, hnp⟩
  · rw [hlen, h.slots.length_eq]
  · rw [hlen]
    exact h.sum

/-- One get and one put of what it returned: the node is there for good. -/
theorem freelist_never_recycles_one : ∃ fl,
    FreelistRuns POOL_SIZE HOLD_OFF_CACHE_SIZE [.put, .get] fl [] ∧
    fl.nodes.length = ([FreelistOp.put, .get].count .get + POOL_SIZE.size - 1) / POOL_SIZE.size ∧
      ∀ fnp < fl.nodes.length, ∃ np, fl.node fnp = .ok np := by
  have hstart : FreelistInv POOL_SIZE (freelistStart HOLD_OFF_CACHE_SIZE) [] [] :=
    freelist_inv_start
  obtain ⟨fl, fnps, p, hget, hinv, -⟩ := hstart.get HOLD_OFF_CACHE_SIZE
  have howned := List.mem_singleton_self p
  obtain ⟨fl', hput, -⟩ := hinv.put howned HOLD_OFF_CACHE_SIZE
  have hrun := FreelistRuns.put (.get .start hget) howned hput
  rw [List.erase_cons_head] at hrun
  exact ⟨fl', hrun, freelist_never_recycles hrun⟩

end

end Mepl
