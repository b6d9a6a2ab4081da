import Mepl.Alloc.SlabNodes

namespace Mepl
open Base

namespace SlabNodes

def OnList (sp : Slab) (head : Link) (np : Nat) : Prop :=
  ∃ nps : List Nat, sp.links.Ring head (nps.map .nNodes) ∧ np ∈ nps

def InRing (rp : Ring) (np : Nat) : Prop :=
  ∃ k < rp.rLen, rp.rBuf[(rp.rRd + k) % rp.rSize]? = some (some np)

/-- A node is in one place, which its count tells, and counts its clear bits;
its set bits are the slots of live pointers. -/
structure NodeKept (sp : Slab) (live : List Ptr) (np : Nat) (n : Node) : Prop where
  place : OnList sp .sAvail np ∧ ¬ OnList sp .sEmpty np ∧ ¬ InRing sp.sRing np ∧ 0 < n.nCount ∨
    ¬ OnList sp .sAvail np ∧ OnList sp .sEmpty np ∧ ¬ InRing sp.sRing np ∧ n.nCount = 0 ∨
    ¬ OnList sp .sAvail np ∧ ¬ OnList sp .sEmpty np ∧ InRing sp.sRing np ∧
      n.nCount = sp.sArrSize
  count : n.nCount = (clearBits n.nSet.bSet sp.sArrSize).card
  slots : ∀ i < sp.sArrSize,
    (hasBit n.nSet.bSet i = true ↔ ∃ p ∈ live, p.pOwner = np ∧ p.pPtr = ⟨n.nArr, i⟩)

structure SlabKept (sp : Slab) (live : List Ptr) : Prop where
  nodes : ∀ np n, sp.node np = .ok n → NodeKept sp live np n
  distinct : (live.map Ptr.pPtr).Nodup

/-- A new node is taken only when none on s_avail has a free slot and none is
in the ring. -/
def NewWhenNone (sp sp' : Slab) : Prop :=
  sp.nodes.length < sp'.nodes.length → sp.sRing.rLen = 0 ∧
    ∀ np n, OnList sp .sAvail np → sp.node np = .ok n → (clearBits n.nSet.bSet sp.sArrSize).card = 0

inductive SlabOp where
  | get
  | put (p : Ptr)
deriving DecidableEq, Repr

section
variable (contents : Nat → Nat → BitVec 64) (addr : Link → Nat)

/-- Every put is of a pointer that is live when it is made. -/
def PutsLive : List SlabOp → Slab → List Ptr → Prop
  | [], _, _ => True
  | .get :: ops, sp, live =>
    ∀ sp' p, slabGet contents sp = .ok (sp', p) → PutsLive ops sp' (p :: live)
  | .put p :: ops, sp, live =>
    p ∈ live ∧ ∀ sp', slabPut addr sp p = .ok sp' → PutsLive ops sp' (live.erase p)

/-- Every call of a run returns, takes a new node only when it must, and leaves
the nodes as they should be. -/
def RunKept : List SlabOp → Slab → List Ptr → Prop
  | [], sp, live => SlabKept sp live
  | .get :: ops, sp, live => SlabKept sp live ∧ ∃ sp' p, slabGet contents sp = .ok (sp', p) ∧
    NewWhenNone sp sp' ∧ RunKept ops sp' (p :: live)
  | .put p :: ops, sp, live => SlabKept sp live ∧ ∃ sp', slabPut addr sp p = .ok sp' ∧
    RunKept ops sp' (live.erase p)

end

section
variable {contents : Nat → Nat → BitVec 64} {addr : Link → Nat} {sp sp' : Slab}
  {live : List Ptr} {np : Nat} {n : Node} {arrSize ringSize : Nat}

theorem RunKept.kept {ops : List SlabOp} (h : RunKept contents addr ops sp live) :
    SlabKept sp live := by
  cases ops with
  | nil => exact h
  | cons op ops =>
    cases op with
    | get => exact h.1
    | put p => exact h.1

theorem is_power_of_2_pow (k : Nat) : isPowerOf2 (2 ^ k) = true := by
  have hpos : 0 < 2 ^ k := Nat.two_pow_pos k
  simp [isPowerOf2, hpos, Nat.and_two_pow_sub_one_eq_mod]

/-- The slab as slab_init leaves it. -/
def slabStart (arrSize ringSize : Nat) : Slab where
  nodes := []
  links := ((⟨id, id⟩ : Links Link).init .sAvail).init .sEmpty
  sRing := ⟨0, 0, 0, ringSize, List.replicate ringSize none⟩
  sArrSize := arrSize
  mallocs := 0

theorem slab_init (k m : Nat) : slabInit (2 ^ k) (2 ^ m) = .ok (slabStart (2 ^ k) (2 ^ m)) := by
  simp [slabInit, ASSERT, ringInit, is_power_of_2_pow, slabStart]

/-- A list whose head names itself has nothing on it. -/
theorem on_list_self {head : Link} (h : sp.links.next head = head) : ¬ OnList sp head np := by
  intro hon
  obtain ⟨nps, hring, hmem⟩ := hon
  cases nps with
  | nil => exact List.not_mem_nil hmem
  | cons x nps =>
    apply (List.nodup_cons.mp hring.nodup).1
    rw [← h, hring.path.1]
    exact List.mem_cons_self

/-- With an empty ring a node is obtained, and put on no list. -/
theorem node_new_obtained {r : Slab × Nat} (hrun : nodeNew contents sp = .ok r)
    (hring : sp.sRing.rLen = 0) :
    ∃ n, n.nCount = sp.sArrSize ∧ r.2 = sp.nodes.length ∧
      r.1.node sp.nodes.length = .ok n ∧ r.1.sArrSize = sp.sArrSize ∧ r.1.sRing = sp.sRing ∧
      r.1.links = sp.links.init (.nNodes sp.nodes.length) := by
  simp only [nodeNew, bind_ok] at hrun
  obtain ⟨-, -, empty, hempty, ⟨np, sp₁⟩, hnew, nSet, -, hr⟩ := hrun
  simp only [ringEmpty, bind_ok] at hempty
  obtain ⟨-, -, hempty⟩ := hempty
  cases hempty
  simp only [hring, BEq.rfl, Bool.not_true, Bool.false_eq_true, if_false] at hnew
  cases hnew
  cases hr
  refine ⟨⟨nSet, sp.sArrSize, sp.mallocs + 1⟩, rfl, rfl, ?_, rfl, rfl, rfl⟩
  simp [Slab.node, Slab.setNode]

theorem node_get_count {r : Slab × ArrPtr} (hrun : nodeGet sp np = .ok r)
    (hnode : sp.node np = .ok n) :
    ∃ n', n'.nCount = sizeDec n.nCount ∧ r.1.node np = .ok n' ∧ r.1.sRing = sp.sRing ∧
      r.1.links = sp.links := by
  simp only [nodeGet, hnode, ok_bind, bind_ok] at hrun
  obtain ⟨⟨idx, set⟩, -, set', -, hr⟩ := hrun
  cases hr
  refine ⟨{ n with nSet := set', nCount := sizeDec n.nCount }, rfl, ?_, rfl, rfl⟩
  have hlt : np < sp.nodes.length := by
    by_contra hge
    simp [Slab.node, List.getElem?_eq_none (Nat.le_of_not_lt hge)] at hnode
  simp [Slab.node, Slab.setNode, hlt]

/-- The first node obtained is in none of the places. -/
theorem first_get_lost {r : Slab × Ptr}
    (hrun : slabGet contents (slabStart arrSize ringSize) = .ok r) (hsize : 2 ≤ arrSize) :
    ¬ SlabKept r.1 live := by
  simp only [slabGet, bind_ok] at hrun
  obtain ⟨-, -, p, hp, ⟨sp₁, np⟩, hnew, ⟨sp₂, vp⟩, hget, n, hn, hr⟩ := hrun
  have hhead : (.ok .sAvail : Res Link) = .ok p := hp
  cases hhead
  obtain ⟨n₁, hcount₁, hnp, hnode₁, -, hring₁, hlinks₁⟩ := node_new_obtained hnew rfl
  simp only at hnp hnode₁ hring₁ hlinks₁
  rw [← hnp] at hnode₁
  obtain ⟨n₂, hcount₂, hnode₂, hring₂, hlinks₂⟩ := node_get_count hget hnode₁
  rw [hn] at hnode₂
  cases hnode₂
  have hne : n.nCount ≠ 0 := by
    have hmany : n₁.nCount ≠ 0 := by
      rw [hcount₁]
      simp only [slabStart]
      omega
    rw [hcount₂, size_dec_ne_zero hmany, hcount₁]
    simp only [slabStart]
    omega
  rw [if_neg hne] at hr
  cases hr
  simp only at hring₂ hlinks₂
  intro hkept
  have hplace := (hkept.nodes np n hn).place
  have havail : ¬ OnList sp₂ .sAvail np := by
    apply on_list_self
    rw [hlinks₂, hlinks₁]
    rfl
  have hempty : ¬ OnList sp₂ .sEmpty np := by
    apply on_list_self
    rw [hlinks₂, hlinks₁]
    rfl
  have hring : ¬ InRing sp₂.sRing np := by
    intro hin
    obtain ⟨k, hk, -⟩ := hin
    rw [hring₂, hring₁] at hk
    exact Nat.not_lt_zero k hk
  rcases hplace with h | h | h
  · exact havail h.1
  · exact hempty h.2.1
  · exact hring h.2.2.1

theorem slab_start_kept : SlabKept (slabStart arrSize ringSize) [] where
  nodes := by simp [Slab.node, slabStart]
  distinct := List.nodup_nil

/-- The nodes are as they should be in every state of a run exactly when the
run is empty: the first get already loses its node. -/
theorem slab_run_kept_iff {ops : List SlabOp} {k m : Nat} (harr : arrSize = 2 ^ k)
    (hring : ringSize = 2 ^ m) (hsize : 64 ≤ arrSize)
    (hputs : PutsLive contents addr ops (slabStart arrSize ringSize) []) :
    slabInit arrSize ringSize = .ok (slabStart arrSize ringSize) ∧
    (RunKept contents addr ops (slabStart arrSize ringSize) [] ↔ ops = []) := by
  refine ⟨by rw [harr, hring, slab_init], ?_, ?_⟩
  · intro hkept
    cases ops with
    | nil => rfl
    | cons op ops =>
      cases op with
      | get =>
        obtain ⟨-, sp, p, hget, -, hrest⟩ := hkept
        exact absurd hrest.kept (first_get_lost hget (by omega))
      | put p => exact absurd hputs.1 List.not_mem_nil
  · intro he
    rw [he]
    exact slab_start_kept

end

theorem slab_run_kept_64 : (slabInit 64 1 = .ok (slabStart 64 1)) ∧
    ¬ RunKept (fun _ _ => 0#64) (fun _ => 0x1000) [.get] (slabStart 64 1) [] := by
  have hputs : PutsLive (fun _ _ => 0#64) (fun _ => 0x1000) [.get] (slabStart 64 1) [] :=
    fun _ _ _ => trivial
  have hkept := slab_run_kept_iff (k := 6) (m := 0) rfl rfl (by omega) hputs
  exact ⟨hkept.1, fun h => absurd (hkept.2.mp h) (List.cons_ne_nil _ _)⟩

/-- The sizes of var_def_slab, and a first get from zeroed memory. -/
theorem var_def_slab_lost :
    slabInit (1 <<< 8) (1 <<< 8) = .ok (slabStart (1 <<< 8) (1 <<< 8)) ∧
    ∃ sp p, slabGet (fun _ _ => 0#64) (slabStart (1 <<< 8) (1 <<< 8)) = .ok (sp, p) ∧
      ¬ SlabKept sp [p] := by
  refine ⟨slab_init 8 8, ?_⟩
  have hok : (slabGet (fun _ _ => 0#64) (slabStart (1 <<< 8) (1 <<< 8))).isOk = true := by
    decide +kernel
  cases hget : slabGet (fun _ _ => 0#64) (slabStart (1 <<< 8) (1 <<< 8)) with
  | error e =>
    rw [hget] at hok
    cases hok
  | ok r => exact ⟨r.1, r.2, rfl, first_get_lost hget (by omega)⟩

end SlabNodes

end Mepl
