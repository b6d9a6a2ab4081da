import Mepl.Dynarr.Array

namespace Mepl.Dynarr
open Base

variable {T : Type} {dp dp' : Darr T} {h : Held T} {pp idx p : Nat}

inductive DarrOp (T : Type) where
  | push (v : T)
  /-- a variable is pointed at an element and registered, with the struct
  darr_ptr that malloc() returns -/
  | addPtr (pp idx p : Nat)
  | rmPtr (p : Nat)

def Darr.step (dp : Darr T) : DarrOp T → Res (Darr T)
  | .push v => darrPush dp v
  | .addPtr pp idx p =>
    pure (darrAddPtr { dp with vars := Function.update dp.vars pp (dp.dArr.map (⟨·, idx⟩)) } pp p)
  | .rmPtr p => darrRmPtr dp p

def darrRun (dp : Darr T) (ops : List (DarrOp T)) : Res (Darr T) := ops.foldlM Darr.step dp

def Held.step (h : Held T) : DarrOp T → Held T
  | .push v => { h with xs := h.xs ++ [v] }
  | .addPtr pp idx p => { h with regs := ⟨p, pp, idx⟩ :: h.regs }
  | .rmPtr p => { h with regs := h.regs.filter (fun r => r.node ≠ p) }

/-- The calls a caller may make: only elements are pointed to, a registered
variable stays as it is, malloc() returns new memory, and what is taken out is
registered. -/
def Held.Allows (head : Nat) (h : Held T) : DarrOp T → Prop
  | .push _ => True
  | .addPtr pp idx p =>
    idx < h.xs.length ∧ p ∉ head :: h.regs.map Registered.node ∧
      ∀ r ∈ h.regs, r.var = pp → r.idx = idx
  | .rmPtr p => p ∈ h.regs.map Registered.node

def Allowed (head : Nat) (h : Held T) : List (DarrOp T) → Prop
  | [] => True
  | op :: ops => h.Allows head op ∧ Allowed head (h.step op) ops

def pushes (ops : List (DarrOp T)) : Nat :=
  ops.countP (fun op => match op with | .push _ => true | _ => false)

theorem darr_cells {b : Nat} {cells : List (Option T)} (hb : dp.dArr = some b)
    (hmap : dp.maps[b]? = some (some cells)) : dp.cells = .ok cells := by
  simp [Darr.cells, hb, hmap]

/-- What is at d_arr is a mapping. -/
theorem cells_mapped {cells : List (Option T)} (hcells : dp.cells = .ok cells) :
    ∃ b, dp.dArr = some b ∧ dp.maps[b]? = some (some cells) := by
  unfold Darr.cells at hcells
  split at hcells
  · cases hcells
  · rename_i b hb
    split at hcells
    · rename_i hmap
      cases hcells
      exact ⟨b, hb, hmap⟩
    · cases hcells

theorem Holds.add_ptr (hh : Holds dp h) (hlt : idx < h.xs.length)
    (hp : p ∉ dp.dPtrs :: h.regs.map Registered.node)
    (hsame : ∀ r ∈ h.regs, r.var = pp → r.idx = idx) :
    Holds (darrAddPtr { dp with vars := Function.update dp.vars pp (dp.dArr.map (⟨·, idx⟩)) } pp p)
      { h with regs := ⟨p, pp, idx⟩ :: h.regs } := by
  refine ⟨hh.power, hh.len, hh.fits, hh.cells, (hh.ring.init_other hp).addAfter hp, ?_, ?_, ?_⟩
  · simp [darrAddPtr, hh.live]
  · intro r hr
    rcases List.mem_cons.mp hr with rfl | hr
    · simp [darrAddPtr]
    · have hne : r.node ≠ p := by
        intro he
        apply hp
        rw [← he]
        exact List.mem_cons_of_mem _ (List.mem_map_of_mem hr)
      simp [darrAddPtr, hne, hh.names r hr]
  · intro r hr
    rcases List.mem_cons.mp hr with rfl | hr
    · simp [darrAddPtr, hlt]
    · obtain ⟨hidx, hvar⟩ := hh.points r hr
      refine ⟨hidx, ?_⟩
      by_cases he : r.var = pp
      · simp [darrAddPtr, he, hsame r hr he]
      · simp [darrAddPtr, he, hvar]

theorem Holds.rm_ptr (hh : Holds dp h) (hp : p ∈ h.regs.map Registered.node) :
    ∃ dp', darrRmPtr dp p = .ok dp' ∧ dp'.dPtrs = dp.dPtrs ∧ dp'.dCap = dp.dCap ∧
      Holds dp' { h with regs := h.regs.filter (fun r => r.node ≠ p) } := by
  have hnodup : (h.regs.map Registered.node).Nodup := (List.nodup_cons.mp hh.ring.nodup).2
  have herase : (h.regs.map Registered.node).erase p =
      (h.regs.filter (fun r => r.node ≠ p)).map Registered.node := by
    rw [hnodup.erase_eq_filter, List.filter_map]
    congr 1
    apply List.filter_congr
    intro r _
    simp [bne, beq_eq_decide]
  have hrm : darrRmPtr dp p =
      .ok { dp with links := dp.links.rm p, live := dp.live.erase p } := by
    rw [darrRmPtr, if_pos (hh.live ▸ hp)]
    rfl
  refine ⟨_, hrm, rfl, rfl, ?_⟩
  refine ⟨hh.power, hh.len, hh.fits, hh.cells, herase ▸ hh.ring.rm hp, ?_, ?_, ?_⟩
  · rw [← herase, ← hh.live]
  · intro r hr
    exact hh.names r (List.mem_of_mem_filter hr)
  · intro r hr
    exact hh.points r (List.mem_of_mem_filter hr)

/-- With room left, the value goes behind the others. -/
theorem Holds.push (hh : Holds dp h) (hroom : h.xs.length < dp.dCap) (v : T) :
    ∃ dp', darrPush dp v = .ok dp' ∧ dp'.dPtrs = dp.dPtrs ∧ dp'.dCap = dp.dCap ∧
      Holds dp' { h with xs := h.xs ++ [v] } := by
  obtain ⟨cells, hcells, hlen, htake⟩ := hh.cells
  obtain ⟨b, hb, hmap⟩ := cells_mapped hcells
  have hlt : b < dp.maps.length := (List.getElem?_eq_some_iff.mp hmap).1
  have hne : dp.dLen ≠ dp.dCap := by
    rw [hh.len]
    omega
  have hstore : store cells dp.dLen (some v) = .ok (cells.set dp.dLen (some v)) := by
    apply store_lt
    rw [hh.len]
    omega
  have hpush : darrPush dp v = .ok { dp with
      maps := dp.maps.set b (some (cells.set dp.dLen (some v))), dLen := dp.dLen + 1 } := by
    simp only [darrPush, if_neg hne, pure_ok, ok_bind, hcells, hstore, hb]
  refine ⟨_, hpush, rfl, rfl, ?_⟩
  refine ⟨hh.power, ?_, ?_, ?_, hh.ring, hh.live, hh.names, ?_⟩
  · simp [hh.len]
  · simp
    omega
  · refine ⟨cells.set dp.dLen (some v), darr_cells (b := b) hb (by simp [hlt]), by simp [hlen], ?_⟩
    have hlast : h.xs.length < cells.length := by omega
    simp only [List.length_append, List.length_singleton, hh.len, List.map_append, List.map_cons,
      List.map_nil]
    rw [List.take_add_one, List.take_set_of_le (Nat.le_refl _), htake]
    simp [hlast]
  · intro r hr
    obtain ⟨hidx, hvar⟩ := hh.points r hr
    refine ⟨?_, hvar⟩
    simp
    omega

/-- Rebinding moves the registered variables to the new mapping, each at its
index, and no others. -/
theorem rebind_path {rs : List Registered} {a b n : Nat} (new : Nat)
    (hpath : dp.links.Path a (rs.map Registered.node) dp.dPtrs)
    (hout : dp.dPtrs ∉ rs.map Registered.node) (hb : dp.dArr = some b)
    (hnames : ∀ r ∈ rs, dp.ptr r.node = r.var)
    (hpoints : ∀ r ∈ rs, dp.vars r.var = some ⟨b, r.idx⟩)
    (hnodup : (rs.map Registered.var).Nodup) (hn : rs.length < n) :
    ∃ vars, darrRebind new n dp (dp.links.next a) = .ok { dp with vars } ∧
      (∀ r ∈ rs, vars r.var = some ⟨new, r.idx⟩) ∧
      ∀ v, v ∉ rs.map Registered.var → vars v = dp.vars v := by
  induction rs generalizing dp a n with
  | nil =>
    obtain ⟨n, rfl⟩ := Nat.exists_eq_add_of_lt hn
    refine ⟨dp.vars, ?_, by simp, fun _ _ => rfl⟩
    rw [hpath.1, darrRebind, if_pos rfl]
    rfl
  | cons r rs ih =>
    obtain ⟨n, rfl⟩ := Nat.exists_eq_add_of_lt hn
    obtain ⟨hnext, -, hrest⟩ := hpath
    rw [List.map_cons, List.mem_cons, not_or] at hout
    rw [List.map_cons, List.nodup_cons] at hnodup
    rw [List.forall_mem_cons] at hnames hpoints
    have hother : ∀ q ∈ rs, q.var ≠ r.var := by
      intro q hq he
      exact hnodup.1 (he ▸ List.mem_map_of_mem hq)
    let dp₁ : Darr T := { dp with vars := Function.update dp.vars r.var (some ⟨new, r.idx⟩) }
    have hpath₁ : dp₁.links.Path r.node (rs.map Registered.node) dp₁.dPtrs := hrest
    have hpoints₁ : ∀ q ∈ rs, dp₁.vars q.var = some ⟨b, q.idx⟩ := by
      intro q hq
      simpa [dp₁, hother q hq] using hpoints.2 q hq
    have hn₁ : rs.length < (r :: rs).length + n := by
      simp only [List.length_cons]
      omega
    obtain ⟨vars, hrun, hmoved, hkept⟩ :=
      ih hpath₁ hout.2 hb hnames.2 hpoints₁ hnodup.2 hn₁
    refine ⟨vars, ?_, ?_, ?_⟩
    · have hdiff : ptrDiff (dp.vars (dp.ptr r.node)) dp.dArr = .ok r.idx := by
        simp [hnames.1, hpoints.1, hb, ptrDiff]
      rw [hnext, darrRebind, if_neg (Ne.symm hout.1), hdiff, ok_bind, hnames.1]
      exact hrun
    · rw [List.forall_mem_cons]
      exact ⟨by simp [hkept _ hnodup.1, dp₁], hmoved⟩
    · intro v hv
      rw [List.map_cons, List.mem_cons, not_or] at hv
      simp [hkept v hv.2, hv.1, dp₁]

/-- A grow maps twice the room, copies the elements and moves the registered
pointers, and then the array has no mapping at all. -/
theorem grow_moves (hh : Holds dp h) (hvars : (h.regs.map Registered.var).Nodup) :
    ∃ dp' cells, darrGrow dp = .ok dp' ∧ dp'.dArr = none ∧ dp'.dCap = 2 * dp.dCap ∧
      dp'.maps[dp.maps.length]? = some (some cells) ∧ cells.length = 2 * dp.dCap ∧
      cells.take h.xs.length = h.xs.map some ∧
      ∀ r ∈ h.regs, dp'.vars r.var = some ⟨dp.maps.length, r.idx⟩ := by
  obtain ⟨old, hold, hlen, htake⟩ := hh.cells
  obtain ⟨b, hb, hmap⟩ := cells_mapped hold
  have hlt : b < dp.maps.length := (List.getElem?_eq_some_iff.mp hmap).1
  have hcap : dp.dCap <<< 1 = 2 * dp.dCap := by
    rw [Nat.shiftLeft_eq, Nat.mul_comm]
  have hwhole : old.take dp.dCap = old := List.take_of_length_le (Nat.le_of_eq hlen)
  have hfill : fill (List.replicate (2 * dp.dCap) none) old =
      .ok (old ++ List.replicate dp.dCap none) := by
    have hle : old.length ≤ (List.replicate (2 * dp.dCap) (none : Option T)).length := by
      rw [List.length_replicate]
      omega
    rw [fill, if_pos hle, List.drop_replicate]
    congr 3
    omega
  let dp₁ : Darr T := { dp with maps := dp.maps ++ [some (old ++ List.replicate dp.dCap none)] }
  have hpath₁ : dp₁.links.Path dp₁.dPtrs (h.regs.map Registered.node) dp₁.dPtrs := hh.ring.path
  have hpoints₁ : ∀ r ∈ h.regs, dp₁.vars r.var = some ⟨b, r.idx⟩ := by
    intro r hr
    simpa [hb] using (hh.points r hr).2
  have hn : h.regs.length < dp.live.length + 1 := by simp [hh.live]
  obtain ⟨vars, hrebind, hmoved, -⟩ := rebind_path dp.maps.length hpath₁
    (List.nodup_cons.mp hh.ring.nodup).1 hb hh.names hpoints₁ hvars hn
  have hgrow : darrGrow dp = .ok { dp₁ with
      vars, maps := dp₁.maps.set b none, dArr := none, dCap := 2 * dp.dCap } := by
    simp only [darrGrow, hold, ok_bind, hlen, Nat.lt_irrefl, if_false, hwhole, hcap, hfill]
    rw [hrebind]
    simp only [ok_bind, darrUnmap, dp₁, hb, pure_ok]
  refine ⟨_, old ++ List.replicate dp.dCap none, hgrow, rfl, rfl, ?_, ?_, ?_, hmoved⟩
  · simp [dp₁, Nat.ne_of_lt hlt]
  · simp [hlen]
    omega
  · rw [List.take_append_of_le_length (by rw [hlen]; exact hh.fits), htake]

theorem grow_null (hgrow : darrGrow dp = .ok dp') : dp'.dArr = none := by
  simp only [darrGrow, bind_ok] at hgrow
  obtain ⟨old, -, hgrow⟩ := hgrow
  split at hgrow
  · cases hgrow
  · simp only [bind_ok] at hgrow
    obtain ⟨_, -, _, -, _, -, hlast⟩ := hgrow
    cases hlast
    rfl

/-- With no room left, the value is stored at NULL. -/
theorem push_full (hfull : dp.dLen = dp.dCap) (v : T) : ∃ e, darrPush dp v = .error e := by
  rw [darrPush, if_pos hfull]
  cases hgrow : darrGrow dp with
  | error e => exact ⟨e, rfl⟩
  | ok dp' => exact ⟨.fault, by simp [Darr.cells, grow_null hgrow]⟩

theorem Holds.step (hh : Holds dp h) {op : DarrOp T} (hop : h.Allows dp.dPtrs op)
    (hroom : h.xs.length + pushes [op] ≤ dp.dCap) :
    ∃ dp', dp.step op = .ok dp' ∧ dp'.dPtrs = dp.dPtrs ∧ dp'.dCap = dp.dCap ∧
      Holds dp' (h.step op) := by
  cases op with
  | push v => exact hh.push hroom v
  | addPtr pp idx p =>
    obtain ⟨hlt, hp, hsame⟩ := hop
    exact ⟨_, rfl, rfl, rfl, hh.add_ptr hlt hp hsame⟩
  | rmPtr p => exact hh.rm_ptr hop

theorem pushes_cons (op : DarrOp T) (ops : List (DarrOp T)) :
    pushes (op :: ops) = pushes [op] + pushes ops := by
  simp [pushes, List.countP_cons, Nat.add_comm]

theorem held_step_length (h : Held T) (op : DarrOp T) :
    (h.step op).xs.length = h.xs.length + pushes [op] := by
  cases op with
  | push v => simp [Held.step, pushes]
  | addPtr pp idx p => rfl
  | rmPtr p => rfl

theorem run_kept {ops : List (DarrOp T)} (hh : Holds dp h) (hops : Allowed dp.dPtrs h ops)
    (hroom : h.xs.length + pushes ops ≤ dp.dCap) :
    ∃ dp', darrRun dp ops = .ok dp' ∧ Holds dp' (ops.foldl Held.step h) := by
  induction ops generalizing dp h with
  | nil => exact ⟨dp, rfl, hh⟩
  | cons op ops ih =>
    rw [pushes_cons] at hroom
    obtain ⟨dp₁, hstep, hhead, hcap, hh₁⟩ := hh.step hops.1 (by omega)
    obtain ⟨dp', hrun, hh'⟩ := ih hh₁ (hhead ▸ hops.2) (by rw [held_step_length]; omega)
    refine ⟨dp', ?_, hh'⟩
    rw [darrRun, List.foldlM_cons, hstep]
    exact hrun

theorem run_full {ops : List (DarrOp T)} (hh : Holds dp h) (hops : Allowed dp.dPtrs h ops)
    (hfull : dp.dCap < h.xs.length + pushes ops) : ∃ e, darrRun dp ops = .error e := by
  induction ops generalizing dp h with
  | nil => exact absurd hh.fits (Nat.not_le_of_lt hfull)
  | cons op ops ih =>
    rw [darrRun, List.foldlM_cons]
    by_cases hroom : h.xs.length + pushes [op] ≤ dp.dCap
    · obtain ⟨dp₁, hstep, hhead, hcap, hh₁⟩ := hh.step hops.1 hroom
      rw [pushes_cons] at hfull
      rw [hstep]
      exact ih hh₁ (hhead ▸ hops.2) (by rw [held_step_length]; omega)
    · cases op with
      | push v =>
        have hlen : dp.dLen = dp.dCap := by
          have hone : pushes [DarrOp.push v] = 1 := rfl
          have hfits := hh.fits
          rw [hh.len]
          omega
        obtain ⟨e, hpush⟩ := push_full hlen v
        exact ⟨e, by rw [Darr.step, hpush]; rfl⟩
      | addPtr pp idx p => exact absurd hh.fits hroom
      | rmPtr p => exact absurd hh.fits hroom

/-- A run from a well-formed array keeps the elements and the registered
pointers exactly when no push finds the array full. -/
theorem darr_kept_iff (hh : Holds dp h) {ops : List (DarrOp T)} (hops : Allowed dp.dPtrs h ops) :
    (∃ dp', darrRun dp ops = .ok dp' ∧ Holds dp' (ops.foldl Held.step h)) ↔
      h.xs.length + pushes ops ≤ dp.dCap := by
  constructor
  · rintro ⟨dp', hrun, -⟩
    by_contra hgt
    obtain ⟨e, herr⟩ := run_full hh hops (Nat.lt_of_not_le hgt)
    rw [hrun] at herr
    cases herr
  · exact run_kept hh hops

/-- Room for one element, in the first mapping there is. -/
def oneCell : Darr Nat :=
  ⟨0, 1, 0, some 0, [some [none]], (⟨id, id⟩ : Links Nat), id, fun _ => none, []⟩

theorem one_cell_holds : Holds oneCell ⟨[], []⟩ := by
  refine ⟨⟨0, rfl⟩, rfl, Nat.zero_le _, ⟨[none], rfl, rfl, rfl⟩, ⟨⟨rfl, rfl⟩, ?_⟩, rfl, ?_, ?_⟩
  · simp
  · simp
  · simp

theorem darr_kept_iff_one : Holds oneCell ⟨[], []⟩ ∧
    Allowed oneCell.dPtrs ⟨[], []⟩ [DarrOp.push 5, .addPtr 3 0 1] ∧
    ((∃ dp', darrRun oneCell [.push 5, .addPtr 3 0 1] = .ok dp' ∧ Holds dp' ⟨[5], [⟨1, 3, 0⟩]⟩) ↔
      0 + 1 ≤ oneCell.dCap) := by
  have hops : Allowed oneCell.dPtrs ⟨[], []⟩ [DarrOp.push 5, .addPtr 3 0 1] := by
    simp [Allowed, Held.Allows, Held.step, oneCell]
  exact ⟨one_cell_holds, hops, darr_kept_iff one_cell_holds hops⟩

/-- The push that has to grow stores its value at NULL. -/
theorem grow_faults : Holds oneCell ⟨[], []⟩ ∧ Allowed oneCell.dPtrs ⟨[], []⟩
    [DarrOp.push 5, .push 6] ∧ darrRun oneCell [.push 5, .push 6] = .error .fault :=
  ⟨one_cell_holds, ⟨trivial, trivial, trivial⟩, rfl⟩

end Mepl.Dynarr
