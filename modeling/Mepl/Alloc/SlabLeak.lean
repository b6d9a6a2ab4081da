import Mepl.Alloc.SlabRing

namespace Mepl
open Base

namespace SlabNodes

/-- ring_for_each over do_node_free, which leaves NULL in r_buf. -/
def ringNodesFree (sp : Slab) : Res Slab :=
  (ringForEach sp.sRing).foldlM (fun sp i => do
    let np ← ringLoad sp.sRing i
    let sp ← doNodeFree sp np
    let rBuf ← store sp.sRing.rBuf i none
    pure { sp with sRing := { sp.sRing with rBuf } }) sp

/-- The loop over the list of this head, until it is empty. -/
def listNodesFree (head : Link) : Nat → Slab → Res Slab
  | 0, _ => .error .fuel
  | n + 1, sp =>
    if sp.links.next head = head then pure sp
    else match sp.links.next head with
      | .nNodes np => do
        let sp ← doNodeFree sp np
        listNodesFree head n sp
      | _ => .error .fault

def ringFree (rp : Ring) : Res Ring := do
  ringBaseCheck rp
  pure { rp with rBuf := [] }

/-- _free. A list longer than all the nodes would never end. -/
def slabFree (sp : Slab) : Res Slab := do
  slabBaseCheck sp
  let sp ← ringNodesFree sp
  let sp ← listNodesFree .sAvail (sp.nodes.length + 1) sp
  let sp ← listNodesFree .sEmpty (sp.nodes.length + 1) sp
  let sRing ← ringFree sp.sRing
  pure { sp with sRing }

/-- The states of all runs after slab_init, with the live pointers and the
number of gets. -/
inductive SlabRuns (contents : Nat → Nat → BitVec 64) (addr : Link → Nat) (arrSize ringSize : Nat) :
    Slab → List Ptr → Nat → Prop
  | init {sp : Slab} (call : slabInit arrSize ringSize = .ok sp) :
      SlabRuns contents addr arrSize ringSize sp [] 0
  | get {sp sp' : Slab} {live : List Ptr} {gets : Nat} {p : Ptr}
      (run : SlabRuns contents addr arrSize ringSize sp live gets)
      (call : slabGet contents sp = .ok (sp', p)) :
      SlabRuns contents addr arrSize ringSize sp' (p :: live) (gets + 1)
  | put {sp sp' : Slab} {live : List Ptr} {gets : Nat} {p : Ptr}
      (run : SlabRuns contents addr arrSize ringSize sp live gets) (owned : p ∈ live)
      (call : slabPut addr sp p = .ok sp') :
      SlabRuns contents addr arrSize ringSize sp' (live.erase p) gets

/-- A set of 2^k slots that passes its own checks. -/
structure Bits.Sound (k : Nat) (bp : Bits) : Prop where
  size : bp.bSize = 2 ^ k
  length : bp.bSet.length = BITSET_SIZE (2 ^ k)
  last : bp.bLast < BITSET_SIZE (2 ^ k)

section
variable {k n i idx : Nat} {bp : Bits} {f : BitVec 64 → Nat → BitVec 64}

theorem Bits.Sound.check (h : bp.Sound k) : bitsetBaseCheck bp = .ok () := by
  have hlast := h.last
  have hbig : 0 < BITSET_SIZE (2 ^ k) := by omega
  simp [bitsetBaseCheck, ASSERT, h.size, is_power_of_2_pow, sizeBigEnough, hbig, hlast]

theorem Bits.Sound.op (h : bp.Sound k) (hidx : idx / 64 < BITSET_SIZE (2 ^ k)) :
    ∃ bp', bitsetOp bp f idx = .ok bp' ∧ bp'.Sound k := by
  have hlt : idx / 64 < bp.bSet.length := h.length ▸ hidx
  have hmod : idx % 64 < 64 := Nat.mod_lt idx (by decide)
  refine ⟨{ bp with
    bSet := bp.bSet.set (idx / 64) (f bp.bSet[idx / 64] (idx % 64))
    bLast := if idx / 64 < bp.bLast then idx / 64 else bp.bLast }, ?_, h.size, ?_, ?_⟩
  · simp only [bitsetOp, h.check, bitsetIdxCheck, ASSERT, h.size, bitset_word_idx, bitset_bit_idx,
      hidx, hmod, decide_true, if_true, pure_ok, ok_bind, load_lt hlt, store_lt hlt]
  · rw [List.length_set, h.length]
  · have hlast := h.last
    simp only
    split <;> omega

/-- The search ends at the first word that is not full, if there are few enough
slots for b_size << 6 not to wrap. -/
theorem Bits.Sound.first_zero_from (h : bp.Sound k) (hk : k < 58)
    (hn : i + n = BITSET_SIZE (2 ^ k)) :
    (∃ idx, setFirstZeroFrom bp n i = .ok (idx, { bp with bLast := idx / 64 }) ∧
      idx / 64 < BITSET_SIZE (2 ^ k) ∧ ∃ w ∈ bp.bSet.drop i, ~~~w ≠ 0#64) ∨
    (setFirstZeroFrom bp n i = .error (.dbug "0") ∧ ∀ w ∈ bp.bSet.drop i, ~~~w = 0#64) := by
  have hlen := h.length
  induction n generalizing i with
  | zero =>
    right
    refine ⟨rfl, ?_⟩
    rw [List.drop_eq_nil_of_le (by omega)]
    simp
  | succ n ih =>
    have hlt : i < bp.bSet.length := by omega
    rw [setFirstZeroFrom, load_lt hlt, ok_bind, List.drop_eq_getElem_cons hlt]
    rcases word_first_zero_cases bp.bSet[i] with hnone | ⟨b, hb, hfound, hclear⟩
    · have hfull : ~~~bp.bSet[i] = 0#64 := by
        by_contra hne
        rw [wordFirstZero, if_neg hne] at hnone
        omega
      rw [hnone, if_pos (by omega)]
      rcases ih (i := i + 1) (by omega) with ⟨idx, hrun, hidx, w, hw, hne⟩ | ⟨hrun, hall⟩
      · exact Or.inl ⟨idx, hrun, hidx, w, List.mem_cons_of_mem _ hw, hne⟩
      · exact Or.inr ⟨hrun, List.forall_mem_cons.mpr ⟨hfull, hall⟩⟩
    · left
      have hidx : (i <<< BITSET_SHIFT) + (b : Int).toNat = 64 * i + b := by
        rw [Nat.shiftLeft_eq, Int.toNat_natCast, Nat.mul_comm]
        rfl
      have hdiv : (64 * i + b) / 64 = i := by omega
      have hcount : 64 * i + b < BITSET_COUNT bp.bSize := by
        have hpow : 2 ^ k * 64 < 2 ^ 64 := by
          have := Nat.pow_lt_pow_right (a := 2) (by omega) hk
          omega
        rw [h.size, BITSET_COUNT, Nat.shiftLeft_eq, BITSET_SHIFT, Nat.mod_eq_of_lt hpow]
        rw [bitset_size] at hn
        omega
      refine ⟨64 * i + b, ?_, by omega, bp.bSet[i], List.mem_cons_self, ?_⟩
      · rw [hfound, if_neg (by omega), hidx, if_pos hcount, hdiv]
        rfl
      · intro hfull
        have hones : bp.bSet[i].getLsbD b = true := by
          have hbit := congrArg (fun w => BitVec.getLsbD w b) hfull
          simpa [hb] using hbit
        rw [hones] at hclear
        cases hclear

/-- From 2^58 slots on, b_size << 6 is 0 and no slot is below it. -/
theorem Bits.Sound.first_zero_wraps (h : bp.Sound k) (hk : 58 ≤ k)
    (hn : i + n = BITSET_SIZE (2 ^ k)) : setFirstZeroFrom bp n i = .error (.dbug "0") := by
  have hcount : BITSET_COUNT bp.bSize = 0 := by
    rw [h.size, BITSET_COUNT, Nat.shiftLeft_eq, BITSET_SHIFT, ← Nat.pow_add]
    exact Nat.mod_eq_zero_of_dvd (Nat.pow_dvd_pow 2 (by omega))
  have hlen := h.length
  induction n generalizing i with
  | zero => rfl
  | succ n ih =>
    have hlt : i < bp.bSet.length := by omega
    have hrest := ih (i := i + 1) (by omega)
    rw [setFirstZeroFrom, load_lt hlt, ok_bind, hcount, hrest]
    simp

/-- Among the words that malloc() left for a set of 2^k slots there is one that
is not full, and b_size << 6 does not wrap. -/
def Room (k : Nat) (words : Nat → BitVec 64) : Prop :=
  k < 58 ∧ ∃ j < BITSET_SIZE (2 ^ k), ~~~words j ≠ 0#64

def freshSet (k : Nat) (words : Nat → BitVec 64) : Bits :=
  ⟨(List.range (BITSET_SIZE (2 ^ k))).map words, 0, 2 ^ k⟩

theorem fresh_sound {words : Nat → BitVec 64} (hbig : 0 < BITSET_SIZE (2 ^ k)) :
    (freshSet k words).Sound k := ⟨rfl, by simp [freshSet], hbig⟩

/-- A new node has a slot to hand out if its set has room, as it was found. -/
theorem fresh_first_zero (words : Nat → BitVec 64) (hbig : 0 < BITSET_SIZE (2 ^ k)) :
    (Room k words ∧ ∃ idx, idx / 64 < BITSET_SIZE (2 ^ k) ∧
      setFirstZero (freshSet k words) = .ok (idx, { freshSet k words with bLast := idx / 64 })) ∨
    (¬ Room k words ∧ setFirstZero (freshSet k words) = .error (.dbug "0")) := by
  have hsound : (freshSet k words).Sound k := fresh_sound hbig
  have hstart : 0 + BITSET_SIZE (freshSet k words).bSize = BITSET_SIZE (2 ^ k) := Nat.zero_add _
  rw [setFirstZero, hsound.check, ok_bind]
  rcases Nat.lt_or_ge k 58 with hk | hk
  · rcases hsound.first_zero_from hk hstart with ⟨idx, hrun, hidx, w, hw, hne⟩ | ⟨hrun, hall⟩
    · left
      obtain ⟨j, hj, rfl⟩ := List.mem_map.mp hw
      exact ⟨⟨hk, j, List.mem_range.mp hj, hne⟩, idx, hidx, hrun⟩
    · right
      refine ⟨fun hroom => ?_, hrun⟩
      obtain ⟨-, j, hj, hne⟩ := hroom
      exact hne (hall _ (List.mem_map_of_mem (List.mem_range.mpr hj)))
  · right
    exact ⟨fun hroom => absurd hroom.1 (Nat.not_lt.mpr hk), hsound.first_zero_wraps hk hstart⟩

end

/-- A node that has handed out one slot, and is on no list. -/
structure NodeOut (k : Nat) (n : Node) : Prop where
  count : n.nCount + 1 = 2 ^ k
  sound : n.nSet.Sound k

/-- What a run keeps: nothing is on a list or in the ring. -/
structure Unlisted (k m : Nat) (sp : Slab) (live : List Ptr) (gets : Nat) : Prop where
  size : sp.sArrSize = 2 ^ k
  ring : sp.sRing = ⟨0, 0, 0, 2 ^ m, List.replicate (2 ^ m) none⟩
  avail : sp.links.next .sAvail = .sAvail
  empty : sp.links.next .sEmpty = .sEmpty
  nodes : sp.nodes.length = gets
  out : ∀ np < gets, ∃ n, sp.node np = .ok n ∧ NodeOut k n
  live : ∀ p ∈ live, ∃ n, sp.node p.pOwner = .ok n ∧ p.pPtr.arr = n.nArr ∧
    p.pPtr.idx / 64 < BITSET_SIZE (2 ^ k)

section
variable {contents : Nat → Nat → BitVec 64} {addr : Link → Nat} {k m gets np : Nat}
  {sp sp' : Slab} {live : List Ptr} {p : Ptr} {n : Node}

theorem slab_node_ok : sp.node np = .ok n ↔ sp.nodes[np]? = some (some n) := by
  unfold Slab.node
  split <;> simp_all

theorem slab_node_lt (h : sp.node np = .ok n) : np < sp.nodes.length :=
  (List.getElem?_eq_some_iff.mp (slab_node_ok.mp h)).1

theorem Unlisted.base_check (h : Unlisted k m sp live gets) : slabBaseCheck sp = .ok () := by
  have hne : (2 ^ k == 0) = false := beq_false_of_ne (Nat.ne_of_gt (Nat.two_pow_pos k))
  simp [slabBaseCheck, ASSERT, h.size, is_power_of_2_pow, bne, hne]

theorem ring_start_check :
    ringBaseCheck ⟨0, 0, 0, 2 ^ m, List.replicate (2 ^ m) none⟩ = .ok () := by
  have hpos := Nat.two_pow_pos m
  simp [ringBaseCheck, ASSERT, is_power_of_2_pow, hpos]

theorem Unlisted.ring_empty (h : Unlisted k m sp live gets) : ringEmpty sp.sRing = .ok true := by
  rw [ringEmpty, h.ring, ring_start_check]
  rfl

theorem Unlisted.search (h : Unlisted k m sp live gets) :
    sp.links.search .sAvail (availCount sp) .fuel (sp.nodes.length + 1)
      (sp.links.next .sAvail) = .ok .sAvail := by
  rw [h.avail, Links.search, if_pos rfl, pure_ok]

theorem Unlisted.node_new (h : Unlisted k m sp live gets) (hbig : 0 < BITSET_SIZE (2 ^ k)) :
    nodeNew contents sp = .ok ({ sp with
      nodes := sp.nodes ++ [some ⟨freshSet k (contents sp.mallocs), 2 ^ k, sp.mallocs + 1⟩]
      links := sp.links.init (.nNodes sp.nodes.length)
      mallocs := sp.mallocs + 2 }, sp.nodes.length) := by
  have hset : setInit (2 ^ k) (contents sp.mallocs) =
      .ok (freshSet k (contents sp.mallocs)) := by
    simp [setInit, ASSERT, is_power_of_2_pow, sizeBigEnough, hbig, freshSet]
  simp [nodeNew, h.base_check, h.ring_empty, hset, Slab.setNode, h.size]

/-- A get takes a new node, and hands out a slot of it if its set has room. -/
theorem Unlisted.get_eq (h : Unlisted k m sp live gets) (hbig : 0 < BITSET_SIZE (2 ^ k)) :
    slabGet contents sp = (do
      let (idx, nSet) ← setFirstZero (freshSet k (contents sp.mallocs))
      let nSet ← setSet nSet idx
      let n : Node := ⟨nSet, 2 ^ k - 1, sp.mallocs + 1⟩
      pure ({ sp with
        nodes := sp.nodes ++ [some n]
        links := sp.links.init (.nNodes sp.nodes.length)
        mallocs := sp.mallocs + 2 }, ⟨sp.nodes.length, sp.mallocs + 1, idx⟩)) := by
  have hcount : 2 ^ k - 1 ≠ 0 := by
    rw [bitset_size] at hbig
    omega
  have hdec : sizeDec (2 ^ k) = 2 ^ k - 1 := size_dec_ne_zero (Nat.ne_of_gt (Nat.two_pow_pos k))
  rw [slabGet, h.base_check, ok_bind, h.search, ok_bind]
  simp only [h.node_new hbig, ok_bind]
  rw [nodeGet]
  cases hzero : setFirstZero (freshSet k (contents sp.mallocs)) with
  | error e => simp [Slab.node, hzero]
  | ok r =>
    cases hset : setSet r.2 r.1 with
    | error e => simp [Slab.node, hzero, hset]
    | ok nSet => simp [Slab.node, Slab.setNode, hzero, hset, hcount, hdec]

theorem append_slab_node (n : Node) (links : Links Link) (mallocs : Nat) :
    Slab.node { sp with nodes := sp.nodes ++ [some n], links, mallocs } np =
      if np = sp.nodes.length then .ok n else sp.node np := by
  by_cases he : np = sp.nodes.length
  · simp [Slab.node, he]
  · rw [if_neg he, Slab.node, Slab.node]
    rcases Nat.lt_or_ge np sp.nodes.length with hlt | hge
    · rw [List.getElem?_append_left hlt]
    · rw [List.getElem?_append_right hge, List.getElem?_eq_none (by simp; omega),
        List.getElem?_eq_none hge]

/-- A get returns exactly when the words of the new set have room, and its node
is where the others are: on no list. -/
theorem Unlisted.get (h : Unlisted k m sp live gets) : ((∃ r, slabGet contents sp = .ok r) ↔
      Room k (contents sp.mallocs)) ∧
    ∀ sp' p, slabGet contents sp = .ok (sp', p) → Unlisted k m sp' (p :: live) (gets + 1) := by
  by_cases hbig : 0 < BITSET_SIZE (2 ^ k)
  · rw [h.get_eq hbig]
    rcases fresh_first_zero (contents sp.mallocs) hbig with
      ⟨hroom, idx, hidx, hzero⟩ | ⟨hfull, hzero⟩
    · have hfresh : Bits.Sound k { freshSet k (contents sp.mallocs) with bLast := idx / 64 } :=
        ⟨rfl, (fresh_sound hbig).length, hidx⟩
      obtain ⟨nSet, hset, hsound⟩ := hfresh.op (f := setBit) hidx
      simp only [hzero, ok_bind, setSet, hset, pure_ok]
      refine ⟨iff_of_true ⟨_, rfl⟩ hroom, fun sp' p hcall => ?_⟩
      cases hcall
      have hcount : 2 ^ k - 1 + 1 = 2 ^ k := Nat.sub_add_cancel (Nat.two_pow_pos k)
      refine ⟨h.size, h.ring, ?_, ?_, ?_, fun np hnp => ?_, fun q hq => ?_⟩
      · simpa [Links.init, Links.setNext, Links.setPrev] using h.avail
      · simpa [Links.init, Links.setNext, Links.setPrev] using h.empty
      · rw [List.length_append, h.nodes]
        rfl
      · rw [append_slab_node, h.nodes]
        by_cases he : np = gets
        · exact ⟨_, if_pos he, hcount, hsound⟩
        · rw [if_neg he]
          exact h.out np (by omega)
      · rw [append_slab_node]
        rcases List.mem_cons.mp hq with rfl | hq
        · exact ⟨_, if_pos rfl, rfl, hidx⟩
        · obtain ⟨n, hn, hin⟩ := h.live q hq
          exact ⟨n, (if_neg (Nat.ne_of_lt (slab_node_lt hn))).trans hn, hin⟩
    · simp only [hzero, error_bind]
      refine ⟨iff_of_false (by simp) hfull, fun sp' p hcall => ?_⟩
      cases hcall
  · have hnew : nodeNew contents sp = .error (.dbug "size_big_enough(size)") := by
      simp [nodeNew, h.base_check, h.ring_empty, setInit, ASSERT, h.size, is_power_of_2_pow,
        sizeBigEnough, hbig]
    have hcall : slabGet contents sp = .error (.dbug "size_big_enough(size)") := by
      rw [slabGet, h.base_check, ok_bind, h.search, ok_bind]
      simp only [hnew, error_bind]
    have hfull : ¬ Room k (contents sp.mallocs) := by
      intro hroom
      obtain ⟨-, j, hj, -⟩ := hroom
      omega
    rw [hcall]
    refine ⟨iff_of_false (by simp) hfull, fun sp' p hget => ?_⟩
    cases hget

/-- A put of a live pointer clears its bit, and no count changes. -/
theorem Unlisted.put (h : Unlisted k m sp live gets) (haddr : 2 ^ k ≤ addr .sEmpty)
    (hp : p ∈ live) :
    ∃ sp', slabPut addr sp p = .ok sp' ∧ Unlisted k m sp' (live.erase p) gets := by
  obtain ⟨n, hn, harr, hidx⟩ := h.live p hp
  obtain ⟨n', hn', hout⟩ := h.out p.pOwner (h.nodes ▸ slab_node_lt hn)
  obtain rfl : n = n' := Except.ok.inj (hn.symm.trans hn')
  obtain ⟨set, hclear, hsound⟩ := hout.sound.op (f := clearBit) hidx
  have hlt := slab_node_lt hn
  have hcount := hout.count
  have hsame : (sp.setNode p.pOwner { n with nSet := set }).node p.pOwner =
      .ok { n with nSet := set } := by
    simp [Slab.node, Slab.setNode, hlt]
  have hother : ∀ np, np ≠ p.pOwner →
      (sp.setNode p.pOwner { n with nSet := set }).node np = sp.node np := by
    intro np hne
    simp [Slab.node, Slab.setNode, List.getElem?_set_ne hne.symm]
  refine ⟨sp.setNode p.pOwner { n with nSet := set }, ?_,
    h.size, h.ring, h.avail, h.empty, ?_, fun np hnp => ?_, fun q hq => ?_⟩
  · have hput : nodePut sp p.pOwner p.pPtr = .ok (sp.setNode p.pOwner { n with nSet := set }) := by
      rw [nodePut, hn, ok_bind, if_pos harr, setClear, hclear]
      rfl
    have hnotFull : n.nCount ≠ sp.sArrSize := by
      rw [h.size]
      omega
    have hnotFirst : ¬ n.nCount > addr (sp.links.next .sEmpty) := by
      rw [h.empty]
      omega
    rw [slabPut, h.base_check]
    simp only [ok_bind, hput, hsame]
    exact (if_neg hnotFull).trans (if_neg hnotFirst)
  · rw [Slab.setNode, List.length_set, h.nodes]
  · by_cases he : np = p.pOwner
    · subst he
      exact ⟨_, hsame, hcount, hsound⟩
    · rw [hother np he]
      exact h.out np hnp
  · obtain ⟨nq, hnq, hq⟩ := h.live q (List.mem_of_mem_erase hq)
    by_cases he : q.pOwner = p.pOwner
    · rw [he, hn] at hnq
      cases hnq
      rw [he]
      exact ⟨_, hsame, hq⟩
    · exact ⟨nq, (hother _ he).trans hnq, hq⟩

/-- slab_free finds nothing to free but the ring's array. -/
theorem Unlisted.free (h : Unlisted k m sp live gets) :
    slabFree sp = .ok { sp with sRing := { sp.sRing with rBuf := [] } } := by
  have hring : ringNodesFree sp = .ok sp := by
    rw [ringNodesFree, h.ring]
    rfl
  have havail : listNodesFree .sAvail (sp.nodes.length + 1) sp = .ok sp := by
    rw [listNodesFree, if_pos h.avail, pure_ok]
  have hempty : listNodesFree .sEmpty (sp.nodes.length + 1) sp = .ok sp := by
    rw [listNodesFree, if_pos h.empty, pure_ok]
  have hfree : ringFree sp.sRing = .ok { sp.sRing with rBuf := [] } := by
    rw [ringFree, h.ring, ring_start_check]
    rfl
  simp only [slabFree, h.base_check, hring, havail, hempty, hfree, ok_bind, pure_ok]

theorem unlisted_start : Unlisted k m (slabStart (2 ^ k) (2 ^ m)) [] 0 where
  size := rfl
  ring := rfl
  avail := rfl
  empty := rfl
  nodes := rfl
  out := by simp
  live := by simp

theorem slab_runs_unlisted (haddr : 2 ^ k ≤ addr .sEmpty)
    (h : SlabRuns contents addr (2 ^ k) (2 ^ m) sp live gets) : Unlisted k m sp live gets := by
  induction h with
  | init call =>
    cases call.symm.trans (slab_init k m)
    exact unlisted_start
  | get run call ih => exact ih.get.2 _ _ call
  | put run owned call ih =>
    obtain ⟨sp', hput, hrest⟩ := ih.put haddr owned
    cases call.symm.trans hput
    exact hrest

/-- After any run of gets and puts there is a node for every get, and none of
them is in a place where a later call would find it: a put gives no slot back,
and slab_free leaves all of them allocated. -/
theorem slab_run_leaks (haddr : 2 ^ k ≤ addr .sEmpty)
    (h : SlabRuns contents addr (2 ^ k) (2 ^ m) sp live gets) : sp.nodes.length = gets ∧
    (∀ np, ¬ OnList sp .sAvail np ∧ ¬ OnList sp .sEmpty np ∧ ¬ InRing sp.sRing np) ∧
    ((∃ r, slabGet contents sp = .ok r) ↔ Room k (contents sp.mallocs)) ∧
    (∀ p ∈ live, ∃ sp', slabPut addr sp p = .ok sp') ∧
    ∃ sp', slabFree sp = .ok sp' ∧ ∀ np < gets, ∃ n, sp'.node np = .ok n := by
  have hun := slab_runs_unlisted haddr h
  refine ⟨hun.nodes, fun np => ⟨on_list_self hun.avail, on_list_self hun.empty, ?_⟩,
    hun.get.1, fun p hp => ?_, _, hun.free, fun np hnp => ?_⟩
  · intro hin
    obtain ⟨i, hi, -⟩ := hin
    rw [hun.ring] at hi
    exact Nat.not_lt_zero i hi
  · obtain ⟨sp', hput, -⟩ := hun.put haddr hp
    exact ⟨sp', hput⟩
  · obtain ⟨n, hn, -⟩ := hun.out np hnp
    exact ⟨n, hn⟩

end

/-- One get from zeroed memory, of a slab at 0x1000. -/
theorem slab_run_leaks_zeroed : ∃ sp p,
    SlabRuns (fun _ _ => 0#64) (fun _ => 0x1000) (2 ^ 6) (2 ^ 0) sp [p] 1 ∧
    sp.nodes.length = 1 ∧
    (∀ np, ¬ OnList sp .sAvail np ∧ ¬ OnList sp .sEmpty np ∧ ¬ InRing sp.sRing np) ∧
    ((∃ r, slabGet (fun _ _ => 0#64) sp = .ok r) ↔ Room 6 (fun _ => 0#64)) ∧
    (∀ q ∈ [p], ∃ sp', slabPut (fun _ => 0x1000) sp q = .ok sp') ∧
    ∃ sp', slabFree sp = .ok sp' ∧ ∀ np < 1, ∃ n, sp'.node np = .ok n := by
  have hroom : Room 6 (fun _ => 0#64) := ⟨by decide, 0, by decide, by decide⟩
  have hstart : Unlisted 6 0 (slabStart (2 ^ 6) (2 ^ 0)) [] 0 := unlisted_start
  have hget₀ := @Unlisted.get (fun _ _ => 0#64) _ _ _ _ _ hstart
  obtain ⟨⟨sp, p⟩, hget⟩ := hget₀.1.mpr hroom
  have hrun : SlabRuns (fun _ _ => 0#64) (fun _ => 0x1000) (2 ^ 6) (2 ^ 0) sp [p] 1 :=
    .get (.init (slab_init 6 0)) hget
  exact ⟨sp, p, hrun, slab_run_leaks (by decide) hrun⟩

end SlabNodes

end Mepl
