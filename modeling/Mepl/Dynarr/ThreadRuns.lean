import Mepl.Dynarr.Runs
import Mepl.Dynarr.Threads

namespace Mepl.Dynarr
open Base

/-- The thread has nums_mut. -/
def Worker.numsLocked (w : Worker) : Bool :=
  match w.pc with
  | .push _ | .release _ | .point _ _ _ | .unlock _ => true
  | _ => false

/-- The thread has ptrs_mut. -/
def Worker.ptrsLocked (w : Worker) : Bool :=
  match w.pc with
  | .link _ _ | .unlockPtrs _ _ => true
  | _ => false

/-- The first number that is not pushed yet. -/
def Worker.upTo (w : Worker) : Nat :=
  match w.pc with
  | .loop i | .lock i | .push i => i
  | .release i | .alloc i | .lockPtrs i _ | .link i _ | .unlockPtrs i _ | .draw i _
  | .relock i _ _ | .point i _ _ | .unlock i => i + 1
  | .done => w.high

/-- The thread is at a number of its range. -/
def Worker.Within (w : Worker) : Prop :=
  match w.pc with
  | .loop i => w.low ≤ i ∧ i ≤ w.high
  | .lock i | .push i | .release i | .alloc i | .lockPtrs i _ | .link i _ | .unlockPtrs i _
  | .draw i _ | .relock i _ _ | .point i _ _ | .unlock i => w.low ≤ i ∧ i < w.high
  | .done => w.low ≤ w.high

def Worker.pushed (w : Worker) : List Nat := List.range' w.low (w.upTo - w.low)

/-- A struct ptr that is not on the list yet. -/
def Worker.held (w : Worker) : List Nat :=
  match w.pc with
  | .lockPtrs _ p | .link _ p => [p]
  | _ => []

/-- A struct ptr on the list whose p is not set yet. -/
def Worker.unset (w : Worker) : List Nat :=
  match w.pc with
  | .unlockPtrs _ p | .draw _ p | .relock _ p _ | .point _ p _ => [p]
  | _ => []

/-- While the threads run: nums holds h, and ps is the list from ptrs. -/
structure Safe (q : Nat) (s : Prog) (h : Held Nat) (ps : List Nat) : Prop where
  nums : Holds s.nums h
  cap : s.nums.dCap = DARR_CAP_INIT
  switches : s.nswitches = 0
  numsMut : Guards s.numsMut Worker.numsLocked s.threads
  ptrsMut : Guards s.ptrsMut Worker.ptrsLocked s.threads
  range : ∀ (t : Nat) (w : Worker), s.threads[t]? = some w →
    w.low = t * q ∧ w.high = t * q + q ∧ w.Within
  count : s.threads.length ≤ NR_THREADS
  pushed : h.xs.Perm (s.threads.flatMap Worker.pushed)
  list : Chain s.next s.ptrs ps
  /-- every block is on one of the lists or in the hands of a thread -/
  blocks : s.blocks.Perm
    (ps ++ (h.regs.map Registered.node ++ s.threads.flatMap Worker.held))
  nodup : (s.nums.dPtrs :: s.blocks).Nodup
  /-- every struct ptr is registered, or is by the thread that made it -/
  vars : ps.Perm (h.regs.map Registered.var ++ s.threads.flatMap Worker.unset)

section
variable {q t c : Nat} {s s' : Prog} {w : Worker} {h : Held Nat} {ps : List Nat}

theorem Safe.range_set (hs : Safe q s h ps) (hw : s.threads[t]? = some w) {pc : Pc}
    (hwithin : Worker.Within { w with pc }) (u : Nat) (v : Worker)
    (hv : (s.threads.set t { w with pc })[u]? = some v) :
    v.low = u * q ∧ v.high = u * q + q ∧ v.Within := by
  rcases set_get hv with ⟨rfl, rfl⟩ | ⟨-, hv⟩
  · obtain ⟨hlow, hhigh, -⟩ := hs.range _ w hw
    exact ⟨hlow, hhigh, hwithin⟩
  · exact hs.range u v hv

theorem Safe.count_set (hs : Safe q s h ps) (t : Nat) (w : Worker) :
    (s.threads.set t w).length ≤ NR_THREADS :=
  Nat.le_trans (Nat.le_of_eq List.length_set) hs.count

/-- A thread that moves on and has afterwards what it had before. -/
theorem Safe.move (hs : Safe q s h ps) (hw : s.threads[t]? = some w) {pc : Pc}
    {m m' : Option Nat}
    (hnums : Guards m Worker.numsLocked (s.threads.set t { w with pc }))
    (hptrs : Guards m' Worker.ptrsLocked (s.threads.set t { w with pc }))
    (hwithin : Worker.Within { w with pc })
    (hsame : Worker.upTo { w with pc } = w.upTo ∧ Worker.held { w with pc } = w.held ∧
      Worker.unset { w with pc } = w.unset) :
    Safe q { s.go t w pc with numsMut := m, ptrsMut := m' } h ps where
  nums := hs.nums
  cap := hs.cap
  switches := hs.switches
  numsMut := hnums
  ptrsMut := hptrs
  range := hs.range_set hw hwithin
  count := hs.count_set t _
  pushed := by
    refine hs.pushed.trans (flatMap_set_same hw ?_).symm
    rw [Worker.pushed, hsame.1, Worker.pushed]
  list := hs.list
  blocks := hs.blocks.trans
    (((flatMap_set_same hw hsame.2.1).symm.append_left _).append_left _)
  nodup := hs.nodup
  vars := hs.vars.trans ((flatMap_set_same hw hsame.2.2).symm.append_left _)

theorem pushed_length (hw : w.Within) (hhigh : w.high = w.low + q) : w.pushed.length ≤ q := by
  rw [Worker.pushed, List.length_range']
  unfold Worker.Within at hw
  unfold Worker.upTo
  split at hw <;> simp_all <;> omega

theorem flatMap_pushed_length {threads : List Worker} (h : ∀ w ∈ threads, w.pushed.length ≤ q) :
    (threads.flatMap Worker.pushed).length ≤ threads.length * q := by
  induction threads with
  | nil => simp
  | cons w threads ih =>
    rw [List.forall_mem_cons] at h
    have hrest := ih h.2
    have hw := h.1
    rw [List.flatMap_cons, List.length_append, List.length_cons, Nat.succ_mul]
    omega

theorem Safe.within (hs : Safe q s h ps) (hv : w ∈ s.threads) : w.pushed.length ≤ q := by
  obtain ⟨t, ht⟩ := List.mem_iff_getElem?.mp hv
  obtain ⟨hlow, hhigh, hwithin⟩ := hs.range t w ht
  exact pushed_length hwithin (by omega)

/-- What a thread has pushed is in the array. -/
theorem Safe.pos (hs : Safe q s h ps) (hw : s.threads[t]? = some w) (hlt : w.low < w.upTo) :
    0 < h.xs.length := by
  have hmem : w.low ∈ s.threads.flatMap Worker.pushed := by
    refine List.mem_flatMap.mpr ⟨w, List.mem_of_getElem? hw, ?_⟩
    rw [Worker.pushed, List.mem_range'_1]
    omega
  exact List.length_pos_of_mem (hs.pushed.mem_iff.mpr hmem)

theorem pushed_more {w' : Worker} {i : Nat} (hlow : w'.low = w.low) (hw : w.upTo = i)
    (hw' : w'.upTo = i + 1) (hle : w.low ≤ i) : w'.pushed = w.pushed ++ [i] := by
  have hlast : w.low + 1 * (i - w.low) = i := by omega
  rw [Worker.pushed, Worker.pushed, hlow, hw, hw', Nat.succ_sub hle, List.range'_concat, hlast]

/-- With room left, the array stays where it is. -/
theorem push_arr {dp dp' : Darr Nat} {v : Nat} (hroom : dp.dLen ≠ dp.dCap)
    (hpush : darrPush dp v = .ok dp') : dp'.dArr = dp.dArr := by
  simp only [darrPush, if_neg hroom, pure_ok, ok_bind, bind_ok] at hpush
  obtain ⟨cells, -, cells', -, hpush⟩ := hpush
  cases hb : dp.dArr with
  | none =>
    rw [hb] at hpush
    cases hpush
  | some b =>
    rw [hb] at hpush
    cases hpush
    rfl

/-- One thread pushes i, there is room, and the array does not move. -/
theorem Safe.push (hs : Safe q s h ps) (hq : NR_THREADS * q ≤ DARR_CAP_INIT) {i : Nat} {pc : Pc}
    (hw : s.threads[t]? = some w) (hpc : w.pc = .push i)
    (hlocked : Worker.numsLocked { w with pc } = true)
    (hfree : Worker.ptrsLocked { w with pc } = false)
    (hwithin : Worker.Within { w with pc }) (hupTo : Worker.upTo { w with pc } = i + 1)
    (hheld : Worker.held { w with pc } = []) (hunset : Worker.unset { w with pc } = []) :
    ∃ nums h', darrPush s.nums i = .ok nums ∧ nums.dArr = s.nums.dArr ∧
      Safe q { s.go t w pc with nums } h' ps := by
  have hstart : w.low ≤ i := by
    have := (hs.range t w hw).2.2
    simp only [Worker.Within, hpc] at this
    exact this.1
  have hmore : Worker.pushed { w with pc } = w.pushed ++ [i] :=
    pushed_more rfl (by simp [Worker.upTo, hpc]) hupTo hstart
  have hpushed := flatMap_set_more (f := Worker.pushed) hw hmore
  have hlen : h.xs.length < s.nums.dCap := by
    have hset : ∀ v ∈ s.threads.set t { w with pc }, v.pushed.length ≤ q := by
      intro v hv
      rcases List.mem_or_eq_of_mem_set hv with hv | rfl
      · exact hs.within hv
      · obtain ⟨hlow, hhigh, -⟩ := hs.range t w hw
        exact pushed_length hwithin (by simp only; omega)
    have hall := flatMap_pushed_length hset
    have hxs := hs.pushed.length_eq
    have hmul : s.threads.length * q ≤ NR_THREADS * q := Nat.mul_le_mul_right q hs.count
    rw [hpushed.length_eq, List.length_append, List.length_singleton, List.length_set] at hall
    rw [hs.cap]
    omega
  have hne : s.nums.dLen ≠ s.nums.dCap := by
    rw [hs.nums.len]
    omega
  obtain ⟨nums, hpush, hhead, hcap, hnums⟩ := hs.nums.push hlen i
  have hbefore : w.numsLocked = true ∧ w.ptrsLocked = false ∧ w.held = [] ∧ w.unset = [] := by
    simp [Worker.numsLocked, Worker.ptrsLocked, Worker.held, Worker.unset, hpc]
  obtain ⟨hl, hp, hh, hu⟩ := hbefore
  refine ⟨nums, { h with xs := h.xs ++ [i] }, hpush, push_arr hne hpush, ?_⟩
  exact {
    nums := hnums
    cap := hcap.trans hs.cap
    switches := hs.switches
    numsMut := hs.numsMut.stay hw (hlocked.trans hl.symm)
    ptrsMut := hs.ptrsMut.stay hw (hfree.trans hp.symm)
    range := hs.range_set hw hwithin
    count := hs.count_set t _
    pushed := (hs.pushed.append_right [i]).trans hpushed.symm
    list := hs.list
    blocks := hs.blocks.trans
      (((flatMap_set_same hw (hheld.trans hh.symm)).symm.append_left _).append_left _)
    nodup := hhead ▸ hs.nodup
    vars := hs.vars.trans ((flatMap_set_same hw (hunset.trans hu.symm)).symm.append_left _) }

theorem Safe.parts (hs : Safe q s h ps) :
    (ps ++ (h.regs.map Registered.node ++ s.threads.flatMap Worker.held)).Nodup :=
  hs.blocks.nodup_iff.mp (List.nodup_cons.mp hs.nodup).2

/-- A struct ptr in the hands of a thread is a block, and not on the list. -/
theorem Safe.held_block (hs : Safe q s h ps) (hw : s.threads[t]? = some w) {p : Nat}
    (hp : p ∈ w.held) : p ∈ s.blocks ∧ p ∉ ps := by
  have hmem : p ∈ s.threads.flatMap Worker.held :=
    List.mem_flatMap.mpr ⟨w, List.mem_of_getElem? hw, hp⟩
  have hrest := List.mem_append_right (h.regs.map Registered.node) hmem
  refine ⟨hs.blocks.mem_iff.mpr (List.mem_append_right _ hrest), fun hin => ?_⟩
  exact (List.nodup_append'.mp hs.parts).2.2 hin hrest

/-- A struct ptr whose p is not set is a block, and not registered. -/
theorem Safe.unset_block (hs : Safe q s h ps) (hw : s.threads[t]? = some w) {p : Nat}
    (hp : p ∈ w.unset) : p ∈ s.blocks ∧ p ∉ h.regs.map Registered.var := by
  have hmem : p ∈ s.threads.flatMap Worker.unset :=
    List.mem_flatMap.mpr ⟨w, List.mem_of_getElem? hw, hp⟩
  have hps := hs.vars.mem_iff.mpr (List.mem_append_right _ hmem)
  have hnodup := hs.vars.nodup_iff.mp (List.nodup_append'.mp hs.parts).1
  refine ⟨hs.blocks.mem_iff.mpr (List.mem_append_left _ hps), fun hin => ?_⟩
  exact (List.nodup_append'.mp hnodup).2.2 hin hmem

theorem Safe.fresh (hs : Safe q s h ps) (hc : s.Fresh c) :
    (s.nums.dPtrs :: c :: s.blocks).Nodup := by
  rw [Prog.Fresh, List.mem_cons, not_or] at hc
  have hnodup := List.nodup_cons.mp hs.nodup
  refine List.nodup_cons.mpr ⟨?_, List.nodup_cons.mpr ⟨hc.2, hnodup.2⟩⟩
  rw [List.mem_cons, not_or]
  exact ⟨fun he => hc.1 he.symm, hnodup.1⟩

/-- malloc() of a struct ptr. -/
theorem Safe.alloc (hs : Safe q s h ps) {i : Nat} (hw : s.threads[t]? = some w)
    (hpc : w.pc = .alloc i) (hc : s.Fresh c) :
    Safe q { s.go t w (.lockPtrs i c) with blocks := c :: s.blocks } h ps := by
  have hwithin := (hs.range t w hw).2.2
  have hheld : Worker.held { w with pc := .lockPtrs i c } = w.held ++ [c] := by
    simp [Worker.held, hpc]
  have hmore := flatMap_set_more (f := Worker.held) hw hheld
  exact {
    nums := hs.nums
    cap := hs.cap
    switches := hs.switches
    numsMut := hs.numsMut.stay hw (by simp [Worker.numsLocked, hpc])
    ptrsMut := hs.ptrsMut.stay hw (by simp [Worker.ptrsLocked, hpc])
    range := hs.range_set hw (by simpa [Worker.Within, hpc] using hwithin)
    count := hs.count_set t _
    pushed := hs.pushed.trans
      (flatMap_set_same hw (by simp [Worker.pushed, Worker.upTo, hpc])).symm
    list := hs.list
    blocks := by
      refine ((hs.blocks.cons c).trans ?_).trans ((hmore.symm.append_left _).append_left _)
      rw [← List.append_assoc, ← List.append_assoc, ← List.append_assoc]
      exact (List.perm_append_singleton c _).symm
    nodup := hs.fresh hc
    vars := hs.vars.trans
      ((flatMap_set_same hw (by simp [Worker.unset, hpc])).symm.append_left _) }

/-- A struct ptr becomes the first of the list. -/
theorem Safe.link (hs : Safe q s h ps) {i p : Nat} (hw : s.threads[t]? = some w)
    (hpc : w.pc = .link i p) :
    Safe q { s.go t w (.unlockPtrs i p) with
      next := Function.update s.next p (some s.ptrs)
      ptrs := some p } h (p :: ps) := by
  have hwithin := (hs.range t w hw).2.2
  have hp : p ∈ w.held := by simp [Worker.held, hpc]
  have hout := (hs.held_block hw hp).2
  have hheld : w.held = Worker.held { w with pc := .unlockPtrs i p } ++ [p] := by
    simp [Worker.held, hpc]
  have hunset : Worker.unset { w with pc := .unlockPtrs i p } = w.unset ++ [p] := by
    simp [Worker.unset, hpc]
  have hless := flatMap_set_less (f := Worker.held) hw hheld
  have hmore := flatMap_set_more (f := Worker.unset) hw hunset
  exact {
    nums := hs.nums
    cap := hs.cap
    switches := hs.switches
    numsMut := hs.numsMut.stay hw (by simp [Worker.numsLocked, hpc])
    ptrsMut := hs.ptrsMut.stay hw (by simp [Worker.ptrsLocked, hpc])
    range := hs.range_set hw (by simpa [Worker.Within, hpc] using hwithin)
    count := hs.count_set t _
    pushed := hs.pushed.trans
      (flatMap_set_same hw (by simp [Worker.pushed, Worker.upTo, hpc])).symm
    list := by
      refine .cons (Function.update_self ..) (hs.list.congr (fun k hk => ?_))
      have hne : k ≠ p := fun he => hout (he ▸ hk)
      exact Function.update_of_ne hne ..
    blocks := by
      refine (hs.blocks.trans ((hless.symm.append_left _).append_left _)).trans ?_
      rw [← List.append_assoc, ← List.append_assoc]
      refine (List.perm_append_singleton p _).trans ?_
      rw [List.append_assoc]
      exact .refl _
    nodup := hs.nodup
    vars := by
      refine ((hs.vars.cons p).trans ?_).trans (hmore.symm.append_left _)
      rw [← List.append_assoc]
      exact (List.perm_append_singleton p _).symm }

/-- A pointer to an element is set and registered. -/
theorem Safe.point (hs : Safe q s h ps) {i p r : Nat} (hw : s.threads[t]? = some w)
    (hpc : w.pc = .point i p r) (hc : s.Fresh c) :
    s.nums.dLen ≠ 0 ∧ p ∈ s.blocks ∧ ∃ h', Safe q { s.go t w (.unlock i) with
      nums := darrAddPtr { s.nums with
        vars := Function.update s.nums.vars p (s.nums.dArr.map (⟨·, r % s.nums.dLen⟩)) } p c
      blocks := c :: s.blocks } h' ps := by
  have hwithin := (hs.range t w hw).2.2
  have hp : p ∈ w.unset := by simp [Worker.unset, hpc]
  obtain ⟨hblock, hout⟩ := hs.unset_block hw hp
  have hpos : 0 < s.nums.dLen := by
    have hlt : w.low < w.upTo := by
      simp only [Worker.Within, hpc] at hwithin
      simp only [Worker.upTo, hpc]
      omega
    exact hs.nums.len ▸ hs.pos hw hlt
  have hidx : r % s.nums.dLen < h.xs.length := hs.nums.len ▸ Nat.mod_lt _ hpos
  have hnode : c ∉ s.nums.dPtrs :: h.regs.map Registered.node := by
    intro hin
    apply hc
    rcases List.mem_cons.mp hin with rfl | hin
    · exact List.mem_cons_self
    · refine List.mem_cons_of_mem _ (hs.blocks.mem_iff.mpr (List.mem_append_right _ ?_))
      exact List.mem_append_left _ hin
  have hsame : ∀ x ∈ h.regs, x.var = p → x.idx = r % s.nums.dLen := by
    intro x hx he
    exact absurd (List.mem_map.mpr ⟨x, hx, he⟩) hout
  have hunset : w.unset = Worker.unset { w with pc := .unlock i } ++ [p] := by
    simp [Worker.unset, hpc]
  have hless := flatMap_set_less (f := Worker.unset) hw hunset
  refine ⟨Nat.ne_of_gt hpos, hblock, { h with regs := ⟨c, p, r % s.nums.dLen⟩ :: h.regs }, ?_⟩
  exact {
    nums := hs.nums.add_ptr hidx hnode hsame
    cap := hs.cap
    switches := hs.switches
    numsMut := hs.numsMut.stay hw (by simp [Worker.numsLocked, hpc])
    ptrsMut := hs.ptrsMut.stay hw (by simp [Worker.ptrsLocked, hpc])
    range := hs.range_set hw (by simpa [Worker.Within, hpc] using hwithin)
    count := hs.count_set t _
    pushed := hs.pushed.trans
      (flatMap_set_same hw (by simp [Worker.pushed, Worker.upTo, hpc])).symm
    list := hs.list
    blocks := by
      have hheld := flatMap_set_same (f := Worker.held) (b := { w with pc := .unlock i }) hw
        (by simp [Worker.held, hpc])
      refine ((hs.blocks.trans ((hheld.symm.append_left _).append_left _)).cons c).trans ?_
      exact List.perm_middle.symm
    nodup := hs.fresh hc
    vars := by
      refine (hs.vars.trans (hless.symm.append_left _)).trans ?_
      rw [← List.append_assoc]
      exact List.perm_append_singleton p _ }

/-- One step of a thread, which moves this thread only. -/
theorem Safe.thread (hs : Safe q s h ps) (hq : NR_THREADS * q ≤ DARR_CAP_INIT)
    (hw : s.threads[t]? = some w) {r : Res Prog} (hstep : threadStep s t w c = some r) :
    ∃ s' h' ps', r = .ok s' ∧ Safe q s' h' ps' ∧ s'.main = s.main ∧
      ∃ pc, s'.threads = s.threads.set t { w with pc } := by
  have hwithin := (hs.range t w hw).2.2
  have hnums := hs.numsMut
  have hptrs := hs.ptrsMut
  unfold threadStep at hstep
  split at hstep
  case h_1 i hpc =>
    cases hstep
    simp only [Worker.Within, hpc] at hwithin
    refine ⟨_, h, ps, rfl, ?_, rfl, _, rfl⟩
    split
    · rename_i hlt
      exact hs.move hw (hnums.stay hw (by simp [Worker.numsLocked, hpc]))
        (hptrs.stay hw (by simp [Worker.ptrsLocked, hpc])) ⟨hwithin.1, hlt⟩
        (by simp [Worker.upTo, Worker.held, Worker.unset, hpc])
    · rename_i hge
      have hend : i = w.high := by omega
      exact hs.move hw (hnums.stay hw (by simp [Worker.numsLocked, hpc]))
        (hptrs.stay hw (by simp [Worker.ptrsLocked, hpc]))
        (Nat.le_trans hwithin.1 hwithin.2)
        (by simp [Worker.upTo, Worker.held, Worker.unset, hpc, hend])
  case h_2 i hpc =>
    split at hstep
    · rename_i hfree
      cases hstep
      refine ⟨_, h, ps, rfl, ?_, rfl, _, rfl⟩
      rw [hfree] at hnums
      exact hs.move hw (hnums.lock hw rfl) (hptrs.stay hw (by simp [Worker.ptrsLocked, hpc]))
        (by simpa [Worker.Within, hpc] using hwithin)
        (by simp [Worker.upTo, Worker.held, Worker.unset, hpc])
    · cases hstep
  case h_3 i hpc =>
    simp only [Worker.Within, hpc] at hwithin
    have hpush : ∀ pc, (pc = .release i ∨ pc = .unlock i) → ∃ nums h',
        darrPush s.nums i = .ok nums ∧ nums.dArr = s.nums.dArr ∧
          Safe q { s.go t w pc with nums } h' ps := by
      rintro pc (rfl | rfl)
      · exact hs.push hq hw hpc rfl rfl hwithin rfl rfl rfl
      · exact hs.push hq hw hpc rfl rfl hwithin rfl rfl rfl
    obtain ⟨nums, h', hpush, harr, hsafe⟩ :=
      hpush (if i % 2 = 0 then .release i else .unlock i) (by split <;> simp)
    rw [hpush] at hstep
    simp only [ok_bind, harr, ne_eq, not_true_eq_false, ↓reduceIte, pure_ok] at hstep
    cases hstep
    exact ⟨_, h', ps, rfl, hsafe, rfl, _, rfl⟩
  case h_4 i hpc =>
    cases hstep
    refine ⟨_, h, ps, rfl, ?_, rfl, _, rfl⟩
    exact hs.move hw (hnums.unlock hw (by simp [Worker.numsLocked, hpc]) rfl)
      (hptrs.stay hw (by simp [Worker.ptrsLocked, hpc]))
      (by simpa [Worker.Within, hpc] using hwithin)
      (by simp [Worker.upTo, Worker.held, Worker.unset, hpc])
  case h_5 i hpc =>
    split at hstep
    · rename_i hfresh
      cases hstep
      exact ⟨_, h, ps, rfl, hs.alloc hw hpc hfresh, rfl, _, rfl⟩
    · cases hstep
  case h_6 i p hpc =>
    split at hstep
    · rename_i hfree
      cases hstep
      refine ⟨_, h, ps, rfl, ?_, rfl, _, rfl⟩
      rw [hfree] at hptrs
      exact hs.move hw (hnums.stay hw (by simp [Worker.numsLocked, hpc])) (hptrs.lock hw rfl)
        (by simpa [Worker.Within, hpc] using hwithin)
        (by simp [Worker.upTo, Worker.held, Worker.unset, hpc])
    · cases hstep
  case h_7 i p hpc =>
    have hblock := (hs.held_block hw (p := p) (by simp [Worker.held, hpc])).1
    rw [if_pos hblock] at hstep
    cases hstep
    exact ⟨_, h, p :: ps, rfl, hs.link hw hpc, rfl, _, rfl⟩
  case h_8 i p hpc =>
    cases hstep
    refine ⟨_, h, ps, rfl, ?_, rfl, _, rfl⟩
    exact hs.move hw (hnums.stay hw (by simp [Worker.numsLocked, hpc]))
      (hptrs.unlock hw (by simp [Worker.ptrsLocked, hpc]) rfl)
      (by simpa [Worker.Within, hpc] using hwithin)
      (by simp [Worker.upTo, Worker.held, Worker.unset, hpc])
  case h_9 i p hpc =>
    cases hstep
    refine ⟨_, h, ps, rfl, ?_, rfl, _, rfl⟩
    exact hs.move hw (hnums.stay hw (by simp [Worker.numsLocked, hpc]))
      (hptrs.stay hw (by simp [Worker.ptrsLocked, hpc]))
      (by simpa [Worker.Within, hpc] using hwithin)
      (by simp [Worker.upTo, Worker.held, Worker.unset, hpc])
  case h_10 i p r hpc =>
    split at hstep
    · rename_i hfree
      cases hstep
      refine ⟨_, h, ps, rfl, ?_, rfl, _, rfl⟩
      rw [hfree] at hnums
      exact hs.move hw (hnums.lock hw rfl) (hptrs.stay hw (by simp [Worker.ptrsLocked, hpc]))
        (by simpa [Worker.Within, hpc] using hwithin)
        (by simp [Worker.upTo, Worker.held, Worker.unset, hpc])
    · cases hstep
  case h_11 i p r hpc =>
    split at hstep
    · rename_i hfresh
      obtain ⟨hlen, hblock, h', hsafe⟩ := hs.point hw hpc hfresh
      rw [if_neg (by simp [hlen, hblock])] at hstep
      cases hstep
      exact ⟨_, h', ps, rfl, hsafe, rfl, _, rfl⟩
    · cases hstep
  case h_12 i hpc =>
    cases hstep
    simp only [Worker.Within, hpc] at hwithin
    refine ⟨_, h, ps, rfl, ?_, rfl, _, rfl⟩
    exact hs.move hw (hnums.unlock hw (by simp [Worker.numsLocked, hpc]) rfl)
      (hptrs.stay hw (by simp [Worker.ptrsLocked, hpc]))
      ⟨Nat.le_succ_of_le hwithin.1, hwithin.2⟩
      (by simp [Worker.upTo, Worker.held, Worker.unset, hpc])
  case h_13 => cases hstep

end

/-- The rounds of free set the registered variables to NULL and give back the
cells, and nothing else. -/
theorem free_path {T : Type} {dp : Darr T} {rs : List Registered} {a n : Nat}
    {blocks others : List Nat} (hpath : dp.links.Path a (rs.map Registered.node) dp.dPtrs)
    (hout : dp.dPtrs ∉ rs.map Registered.node) (hnames : ∀ r ∈ rs, dp.ptr r.node = r.var)
    (hblocks : blocks.Perm (rs.map Registered.node ++ others)) (hnodup : blocks.Nodup)
    (hvars : ∀ r ∈ rs, r.var ∈ others) (hn : rs.length < n) :
    ∃ dp' blocks', darrFreeFrom n dp blocks (dp.links.next a) = .ok (dp', blocks') ∧
      blocks'.Perm others ∧ dp'.dArr = dp.dArr ∧ dp'.dPtrs = dp.dPtrs ∧
      (∀ r ∈ rs, dp'.vars r.var = none) ∧
      ∀ v, v ∉ rs.map Registered.var → dp'.vars v = dp.vars v := by
  induction rs generalizing dp a n blocks with
  | nil =>
    obtain ⟨n, rfl⟩ := Nat.exists_eq_add_of_lt hn
    refine ⟨dp, blocks, ?_, hblocks, rfl, rfl, by simp, fun _ _ => rfl⟩
    rw [hpath.1, darrFreeFrom, if_pos rfl]
    rfl
  | cons r rs ih =>
    obtain ⟨n, rfl⟩ := Nat.exists_eq_add_of_lt hn
    obtain ⟨hnext, -, hrest⟩ := hpath
    rw [List.map_cons, List.mem_cons, not_or] at hout
    rw [List.forall_mem_cons] at hnames hvars
    have hnode : r.node ∈ blocks := hblocks.mem_iff.mpr (by simp)
    have hvar : r.var ∈ blocks := hblocks.mem_iff.mpr (List.mem_append_right _ hvars.1)
    let dp₁ : Darr T := { dp with
      vars := Function.update dp.vars r.var none
      live := dp.live.erase r.node }
    have hpath₁ : dp₁.links.Path r.node (rs.map Registered.node) dp₁.dPtrs := hrest
    have hblocks₁ : (blocks.erase r.node).Perm (rs.map Registered.node ++ others) := by
      have herase := hblocks.erase r.node
      rwa [List.map_cons, List.cons_append, List.erase_cons_head] at herase
    have hn₁ : rs.length < (r :: rs).length + n := by
      simp only [List.length_cons]
      omega
    obtain ⟨dp', blocks', hrun, hperm, harr, hhead, hnull, hkept⟩ :=
      ih hpath₁ hout.2 hnames.2 hblocks₁ (hnodup.erase _) hvars.2 hn₁
    refine ⟨dp', blocks', ?_, hperm, harr, hhead, ?_, ?_⟩
    · rw [hnext, darrFreeFrom, if_neg (Ne.symm hout.1), if_neg (not_not_intro hnode), hnames.1,
        if_neg (not_not_intro hvar)]
      exact hrun
    · rw [List.forall_mem_cons]
      refine ⟨?_, hnull⟩
      by_cases hin : r.var ∈ rs.map Registered.var
      · obtain ⟨r', hr', he⟩ := List.mem_map.mp hin
        exact he ▸ hnull r' hr'
      · simp [hkept _ hin, dp₁]
    · intro v hv
      rw [List.map_cons, List.mem_cons, not_or] at hv
      simp [hkept v hv.2, dp₁, hv.1]

/-- intarr_free leaves no cell, and NULL in every registered variable. -/
theorem Holds.free {T : Type} {dp : Darr T} {h : Held T} (hh : Holds dp h)
    {blocks others : List Nat} (hblocks : blocks.Perm (others ++ h.regs.map Registered.node))
    (hnodup : blocks.Nodup) (hvars : ∀ r ∈ h.regs, r.var ∈ others) :
    ∃ dp' blocks', darrFree dp blocks = .ok (dp', blocks') ∧ blocks'.Perm others ∧
      dp'.dArr = none ∧ ∀ r ∈ h.regs, dp'.vars r.var = none := by
  have hn : h.regs.length < dp.live.length + 1 := by simp [hh.live]
  obtain ⟨dp₁, blocks', hrun, hperm, harr, -, hnull, -⟩ := free_path hh.ring.path
    (List.nodup_cons.mp hh.ring.nodup).1 hh.names (hblocks.trans List.perm_append_comm) hnodup
    hvars hn
  obtain ⟨cells, hcells, -⟩ := hh.cells
  obtain ⟨b, hb, -⟩ := cells_mapped hcells
  rw [hb] at harr
  refine ⟨{ dp₁ with
    links := dp₁.links.init dp₁.dPtrs
    maps := dp₁.maps.set b none
    dArr := none }, blocks', ?_, hperm, rfl, hnull⟩
  simp only [darrFree, hrun, ok_bind, darrUnmap, harr, pure_ok]

/-- ptrs_free gives back what is on the list. -/
theorem ptrs_free_list {next : Nat → Option (Option Nat)} {p : Option Nat} {ps blocks : List Nat}
    {n : Nat} (hlist : Chain next p ps) (hblocks : blocks.Perm ps) (hn : ps.length < n) :
    ptrsFree next n p blocks = .ok [] := by
  induction hlist generalizing blocks n with
  | nil =>
    obtain ⟨n, rfl⟩ := Nat.exists_eq_add_of_lt hn
    rw [List.perm_nil.mp hblocks]
    rfl
  | @cons k p ks cell rest ih =>
    obtain ⟨n, rfl⟩ := Nat.exists_eq_add_of_lt hn
    have hk : k ∈ blocks := hblocks.mem_iff.mpr List.mem_cons_self
    have herase := hblocks.erase k
    rw [List.erase_cons_head] at herase
    rw [ptrsFree, if_neg (not_not_intro hk), cell]
    exact ih herase (by simp only [List.length_cons]; omega)

end Mepl.Dynarr
