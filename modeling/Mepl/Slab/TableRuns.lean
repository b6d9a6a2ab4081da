import Mepl.Slab.Table

namespace Mepl

/-- The thread is about to take an element that it found. -/
def Pc.taking : Pc → Bool
  | .getSlab => true
  | _ => false

theorem Pc.taking_locked (pc : Pc) (h : pc.taking = true) : pc.locked = true := by
  cases pc with
  | getSlab => rfl
  | _ => cases h

/-- The thread has an element that no caller has. -/
def Pc.holding : Pc → Bool
  | .getUnlock _ | .putSlab _ => true
  | _ => false

/-- What every run keeps. -/
structure TabSafe (t : SlabType) (s : SlabTabEntry) : Prop where
  /-- who is between MUTEX_LOCK and the release has the mutex -/
  owner : ∀ (i : Nat) (pc : Pc), s.threads[i]? = some pc → pc.locked = true → s.steMut = some i
  avail : ∀ (i : Nat) (pc : Pc), s.threads[i]? = some pc → pc.taking = true → s.steSlab.fp ≠ 0
  array : s.steSlab.free.length = t.SIZE
  count : s.steSlab.fp + s.live.length + s.threads.countP Pc.holding = t.SIZE

/-- No more is free than the threads in the calls will see to. -/
def Served (s : SlabTabEntry) : Prop :=
  0 < s.threads.countP Pc.blocked → s.steSlab.fp ≤ s.threads.countP Pc.serving

section
variable {t : SlabType} {s s' : SlabTabEntry} {threads : List Pc} {i : Nat} {a b : Pc}
  {fp fp' : Nat} {m m' : Option Nat}

/-- A thread that goes from a to b is counted as b and no more as a. -/
theorem count_go {q : Pc → Bool} (h : threads[i]? = some a) :
    (threads.set i b).countP q + (q a).toNat = threads.countP q + (q b).toNat := by
  obtain ⟨hlt, ha⟩ := List.getElem?_eq_some_iff.mp h
  have hle : (q a).toNat ≤ threads.countP q := by
    cases hq : q a with
    | false => exact Nat.zero_le _
    | true => exact List.countP_pos_iff.mpr ⟨a, List.mem_of_getElem? h, hq⟩
  rw [List.countP_set hlt, ha]
  cases ha : q a <;> cases hb : q b <;> simp_all

theorem go_get {j : Nat} {pc : Pc} (h : (threads.set i b)[j]? = some pc) :
    (j = i ∧ pc = b) ∨ (j ≠ i ∧ threads[j]? = some pc) := by
  by_cases he : j = i
  · subst he
    rw [List.getElem?_set_self'] at h
    cases hj : threads[j]? with
    | none => simp [hj] at h
    | some c =>
      left
      simpa [hj, eq_comm] using h
  · rw [List.getElem?_set_ne (Ne.symm he)] at h
    exact Or.inr ⟨he, h⟩

/-- One thread moves, and takes, keeps or gives up the mutex. -/
theorem owner_go (h : ∀ (i : Nat) (pc : Pc), threads[i]? = some pc → pc.locked = true → m = some i)
    (hi : b.locked = false ∨ m' = some i) (hother : ∀ j, j ≠ i → m = some j → m' = some j)
    (j : Nat) (pc : Pc) (hj : (threads.set i b)[j]? = some pc) (hpc : pc.locked = true) :
    m' = some j := by
  rcases go_get hj with ⟨rfl, rfl⟩ | ⟨hne, hj⟩
  · apply hi.resolve_left
    rw [hpc]
    exact Bool.noConfusion
  · exact hother j hne (h j pc hj hpc)

theorem mut_other (hmut : m = some i) (j : Nat) (hne : j ≠ i) (hm : m = some j) :
    m' = some j := by
  rw [hmut, Option.some.injEq] at hm
  exact absurd hm.symm hne

theorem mut_free (hmut : m = none) (j : Nat) (_ : j ≠ i) (hm : m = some j) : m' = some j := by
  rw [hmut] at hm
  cases hm

theorem avail_go (h : ∀ (i : Nat) (pc : Pc), threads[i]? = some pc → pc.taking = true → fp ≠ 0)
    (hi : b.taking = false ∨ fp' ≠ 0)
    (hother : (∃ (j : Nat) (pc : Pc), j ≠ i ∧ threads[j]? = some pc ∧ pc.taking = true) →
      fp ≠ 0 → fp' ≠ 0)
    (j : Nat) (pc : Pc) (hj : (threads.set i b)[j]? = some pc) (hpc : pc.taking = true) :
    fp' ≠ 0 := by
  rcases go_get hj with ⟨rfl, rfl⟩ | ⟨hne, hj⟩
  · apply hi.resolve_left
    rw [hpc]
    exact Bool.noConfusion
  · exact hother ⟨j, pc, hne, hj, hpc⟩ (h j pc hj hpc)

theorem count_holding_go {n l l' : Nat} (h : fp + l + threads.countP Pc.holding = n)
    (ha : threads[i]? = some a)
    (hw : fp' + l' + b.holding.toNat = fp + l + a.holding.toNat) :
    fp' + l' + (threads.set i b).countP Pc.holding = n := by
  have hholding := count_go (b := b) (q := Pc.holding) ha
  omega

/-- One thread moves, and will see to what it adds to the free elements. -/
theorem served_go (h : 0 < threads.countP Pc.blocked → fp ≤ threads.countP Pc.serving)
    (ha : threads[i]? = some a) (hb : b.blocked = false ∨ a.blocked = true)
    (hw : fp' + a.serving.toNat ≤ fp + b.serving.toNat)
    (hpos : 0 < (threads.set i b).countP Pc.blocked) :
    fp' ≤ (threads.set i b).countP Pc.serving := by
  have hserving := count_go (b := b) (q := Pc.serving) ha
  have hblocked := count_go (b := b) (q := Pc.blocked) ha
  have hle : b.blocked.toNat ≤ a.blocked.toNat := by
    rcases hb with hb | hb
    · simp [hb]
    · rw [hb]
      exact Bool.toNat_le _
  have := h (by omega)
  omega

theorem slab_get_moves {sp sp' : SlabStack} {p : Nat} (h : doSlabGet sp = .ok (sp', p)) :
    sp'.fp + 1 = sp.fp ∧ sp'.free = sp.free := by
  unfold doSlabGet at h
  split at h
  · cases h
  · obtain ⟨q, -, he⟩ := bind_ok.mp h
    cases he
    exact ⟨Nat.succ_pred_eq_of_ne_zero (by assumption), rfl⟩

theorem slab_put_moves {sp sp' : SlabStack} {p : Nat} (h : doSlabPut sp p = .ok sp') :
    sp'.fp = sp.fp + 1 ∧ sp'.free.length = sp.free.length := by
  obtain ⟨free, hstore, he⟩ := bind_ok.mp h
  cases he
  exact ⟨rfl, store_length hstore⟩

theorem tab_start_safe {sp sp' : SlabStack} (n : Nat) (harray : sp.free.length = t.SIZE)
    (hinit : doSlabInit t sp = .ok sp') : TabSafe t ⟨sp', none, List.replicate n .out, []⟩ := by
  obtain ⟨sp₁, hrun, hconserved⟩ := slab_init_conserved harray
  rw [hrun] at hinit
  cases hinit
  have hcount := hconserved.count
  refine ⟨?_, ?_, hconserved.array, ?_⟩
  · intro i pc hpc hl
    have hout := List.eq_of_mem_replicate (List.mem_of_getElem? hpc)
    rw [hout] at hl
    cases hl
  · intro i pc hpc ht
    have hout := List.eq_of_mem_replicate (List.mem_of_getElem? hpc)
    rw [hout] at ht
    cases ht
  · simpa [List.countP_replicate, Pc.holding] using hcount

theorem signal_after_wake {j : Nat} (pc : threads[i]? = some Pc.putSignal)
    (asleep : threads[j]? = some Pc.getAsleep) :
    (threads.set j .getWoken)[i]? = some Pc.putSignal := by
  have hne : j ≠ i := by
    intro he
    rw [he, pc] at asleep
    cases asleep
  rw [List.getElem?_set_ne hne]
  exact pc

theorem tab_step_safe (h : TabSafe t s) (hs : TabStep s i s') : TabSafe t s' := by
  obtain ⟨howner, havail, harray, hcount⟩ := h
  cases hs with
  | callGet pc =>
    exact ⟨owner_go howner (Or.inl rfl) (fun _ _ => id), avail_go havail (Or.inl rfl) (fun _ => id),
      harray, count_holding_go hcount pc rfl⟩
  | @callPut p pc owned =>
    have hpos := List.length_pos_of_mem owned
    have hlen := List.length_erase_of_mem owned
    refine ⟨owner_go howner (Or.inl rfl) (fun _ _ => id),
      avail_go havail (Or.inl rfl) (fun _ => id), harray, count_holding_go hcount pc ?_⟩
    simp only [SlabTabEntry.go_slab, hlen, Pc.holding, Bool.toNat_true, Bool.toNat_false]
    omega
  | lock pc free =>
    exact ⟨owner_go howner (Or.inr rfl) (mut_free free),
      avail_go havail (Or.inl rfl) (fun _ => id), harray, count_holding_go hcount pc rfl⟩
  | test pc =>
    have hmut := howner i _ pc rfl
    cases hempty : doSlabEmpty s.steSlab with
    | true =>
      exact ⟨owner_go howner (Or.inr hmut) (fun _ _ => id),
        avail_go havail (Or.inl rfl) (fun _ => id), harray, count_holding_go hcount pc rfl⟩
    | false =>
      have hne : s.steSlab.fp ≠ 0 := by simpa [doSlabEmpty] using hempty
      exact ⟨owner_go howner (Or.inr hmut) (fun _ _ => id),
        avail_go havail (Or.inr hne) (fun _ => id), harray, count_holding_go hcount pc rfl⟩
  | sleep pc =>
    exact ⟨owner_go howner (Or.inl rfl) (mut_other (howner i _ pc rfl)),
      avail_go havail (Or.inl rfl) (fun _ => id), harray, count_holding_go hcount pc rfl⟩
  | wake pc =>
    exact ⟨owner_go howner (Or.inl rfl) (fun _ _ => id), avail_go havail (Or.inl rfl) (fun _ => id),
      harray, count_holding_go hcount pc rfl⟩
  | relock pc free =>
    exact ⟨owner_go howner (Or.inr rfl) (mut_free free),
      avail_go havail (Or.inl rfl) (fun _ => id), harray, count_holding_go hcount pc rfl⟩
  | @get p sp pc call =>
    have hmut := howner i _ pc rfl
    obtain ⟨hfp, hfree⟩ := slab_get_moves call
    refine ⟨owner_go howner (Or.inr hmut) (fun _ _ => id), avail_go havail (Or.inl rfl) ?_, ?_,
      count_holding_go hcount pc ?_⟩
    · intro hother
      obtain ⟨j, pc', hne, hj, htaking⟩ := hother
      have hj' := howner j _ hj (pc'.taking_locked htaking)
      rw [hmut, Option.some.injEq] at hj'
      exact absurd hj'.symm hne
    · simp only
      rw [hfree]
      exact harray
    · simp only [SlabTabEntry.go_live, Pc.holding, Bool.toNat_true, Bool.toNat_false]
      omega
  | @unlock p pc =>
    exact ⟨owner_go howner (Or.inl rfl) (mut_other (howner i _ pc rfl)),
      avail_go havail (Or.inl rfl) (fun _ => id), harray, count_holding_go hcount pc rfl⟩
  | @put p sp pc call =>
    obtain ⟨hfp, hfree⟩ := slab_put_moves call
    have hpos : sp.fp ≠ 0 := by omega
    refine ⟨owner_go howner (Or.inl rfl) (fun _ _ => id),
      avail_go havail (Or.inl rfl) (fun _ _ => hpos), hfree.trans harray,
      count_holding_go hcount pc ?_⟩
    simp only [SlabTabEntry.go_live, Pc.holding, Bool.toNat_true, Bool.toNat_false]
    omega
  | @signal j pc asleep =>
    have pc' := signal_after_wake pc asleep
    exact ⟨owner_go (owner_go howner (Or.inl rfl) (fun _ _ => id)) (Or.inl rfl) (fun _ _ => id),
      avail_go (avail_go havail (Or.inl rfl) (fun _ => id)) (Or.inl rfl) (fun _ => id), harray,
      count_holding_go (count_holding_go hcount asleep rfl) pc' rfl⟩
  | signalNone pc none =>
    exact ⟨owner_go howner (Or.inl rfl) (fun _ _ => id), avail_go havail (Or.inl rfl) (fun _ => id),
      harray, count_holding_go hcount pc rfl⟩

theorem blocked_none (hasleep : ∀ j : Nat, threads[j]? ≠ some Pc.getAsleep)
    (hwait : ∀ j : Nat, threads[j]? ≠ some Pc.getWait) : threads.countP Pc.blocked = 0 := by
  apply List.countP_eq_zero.mpr
  intro pc hpc
  obtain ⟨j, hj⟩ := List.mem_iff_getElem?.mp hpc
  cases pc with
  | getWait => exact absurd hj (hwait j)
  | getAsleep => exact absurd hj (hasleep j)
  | _ => exact Bool.false_ne_true

theorem tab_step_served (h : Served s) (hs : TabStep s i s') (hheard : SignalHeard s i) :
    Served s' := by
  cases hs with
  | callGet pc => exact served_go h pc (Or.inl rfl) (Nat.le_succ _)
  | callPut pc owned => exact served_go h pc (Or.inl rfl) (Nat.le_refl _)
  | lock pc free => exact served_go h pc (Or.inl rfl) (Nat.le_refl _)
  | test pc =>
    cases hempty : doSlabEmpty s.steSlab with
    | true =>
      have hz : s.steSlab.fp = 0 := by simpa [doSlabEmpty] using hempty
      intro _
      simp [hz]
    | false => exact served_go h pc (Or.inl rfl) (Nat.le_refl _)
  | sleep pc => exact served_go h pc (Or.inr rfl) (Nat.le_refl _)
  | wake pc => exact served_go h pc (Or.inl rfl) (Nat.le_succ _)
  | relock pc free => exact served_go h pc (Or.inl rfl) (Nat.le_refl _)
  | get pc call =>
    exact served_go h pc (Or.inl rfl) (Nat.le_of_eq (slab_get_moves call).1)
  | unlock pc => exact served_go h pc (Or.inl rfl) (Nat.le_refl _)
  | put pc call =>
    exact served_go h pc (Or.inl rfl) (Nat.le_of_eq (slab_put_moves call).1)
  | @signal j pc asleep =>
    -- the woken thread is counted in place of the one that signalled
    have pc' := signal_after_wake pc asleep
    have hb := count_go (b := .getWoken) (q := Pc.blocked) asleep
    have hb' := count_go (b := .out) (q := Pc.blocked) pc'
    have hs := count_go (b := .getWoken) (q := Pc.serving) asleep
    have hs' := count_go (b := .out) (q := Pc.serving) pc'
    simp only [Pc.blocked, Pc.serving, Bool.toNat_true, Bool.toNat_false] at hb hb' hs hs'
    intro hpos
    simp only [SlabTabEntry.go_threads, SlabTabEntry.go_slab] at hpos ⊢
    have := h (by omega)
    omega
  | signalNone pc none =>
    have hb := count_go (b := .out) (q := Pc.blocked) pc
    have hs := count_go (b := .out) (q := Pc.serving) pc
    simp only [Pc.blocked, Pc.serving, Bool.toNat_true, Bool.toNat_false] at hb hs
    intro hpos
    simp only [SlabTabEntry.go_threads, SlabTabEntry.go_slab] at hpos ⊢
    rcases hheard pc with ⟨j, hj⟩ | hwait | hfew
    · exact absurd hj (none j)
    · have hz := blocked_none none hwait
      omega
    · have := h (by omega)
      omega

theorem tab_runs_safe {ok : SlabTabEntry → Nat → Prop} (h : TabRuns t ok s) : TabSafe t s := by
  induction h with
  | start n array call => exact tab_start_safe n array call
  | step run meets step ih => exact tab_step_safe ih step

theorem tab_runs_served (h : TabRuns t SignalHeard s) : Served s := by
  induction h with
  | start n array call =>
    intro hpos
    simp [List.countP_replicate, Pc.blocked] at hpos
  | step run meets step ih => exact tab_step_served ih step meets

/-- No wakeup is lost in a run in which every signal that is needed is heard. -/
theorem no_lost_wakeup (h : TabRuns t SignalHeard s) : ¬ LostWakeup s := by
  intro hlost
  obtain ⟨hfree, i, hi, hout⟩ := hlost
  have hblocked : 0 < s.threads.countP Pc.blocked :=
    List.countP_pos_iff.mpr ⟨_, List.mem_of_getElem? hi, rfl⟩
  have hserving : s.threads.countP Pc.serving = 0 := by
    apply List.countP_eq_zero.mpr
    intro pc hpc
    obtain ⟨j, hj⟩ := List.mem_iff_getElem?.mp hpc
    by_cases he : j = i
    · rw [he, hi] at hj
      cases hj
      exact Bool.false_ne_true
    · rw [hout j pc he hj]
      exact Bool.false_ne_true
  have hserved := tab_runs_served h hblocked
  rw [hserving, Nat.le_zero] at hserved
  simp [doSlabEmpty, hserved] at hfree

end

/-- A slab of one element. -/
def slabOne : SlabType := ⟨1, 16, 0x1000, Nat.succ_pos 15⟩

/-- One thread has the one element, the other has found none and is about to sleep. -/
theorem slab_one_wait (ok : SlabTabEntry → Nat → Prop)
    (hok : ∀ (s : SlabTabEntry) (i : Nat), s.threads[i]? ≠ some Pc.putSignal → ok s i) :
    TabRuns slabOne ok ⟨⟨[0x1000], 0⟩, some 1, [.out, .getWait], [0x1000]⟩ := by
  have hstart : TabRuns slabOne ok ⟨⟨[0x1000], 1⟩, none, [.out, .out], []⟩ :=
    @TabRuns.start slabOne _ ⟨[0], 0⟩ _ 2 rfl rfl
  have hcall := hstart.step (hok _ 0 (by simp)) (.callGet rfl)
  have hlock := hcall.step (hok _ 0 (by simp)) (.lock rfl rfl)
  have htest : TabRuns slabOne ok ⟨⟨[0x1000], 1⟩, some 0, [.getSlab, .out], []⟩ :=
    hlock.step (hok _ 0 (by simp)) (.test rfl)
  have hget := htest.step (hok _ 0 (by simp)) (.get rfl rfl)
  have hout : TabRuns slabOne ok ⟨⟨[0x1000], 0⟩, none, [.out, .out], [0x1000]⟩ :=
    hget.step (hok _ 0 (by simp)) (.unlock rfl)
  have hcall' := hout.step (hok _ 1 (by simp)) (.callGet rfl)
  have hlock' := hcall'.step (hok _ 1 (by simp)) (.lock rfl rfl)
  exact hlock'.step (hok _ 1 (by simp)) (.test rfl)

/-- The other thread sleeps, the element is put back, and the signal wakes it. -/
theorem no_lost_wakeup_heard :
    ¬ LostWakeup ⟨⟨[0x1000], 1⟩, none, [.out, .getWoken], []⟩ := by
  have hwait := slab_one_wait SignalHeard (fun _ _ hne hsignal => absurd hsignal hne)
  have hsleep : TabRuns slabOne SignalHeard
      ⟨⟨[0x1000], 0⟩, none, [.out, .getAsleep], [0x1000]⟩ :=
    hwait.step (i := 1) (fun hsignal => Pc.noConfusion (Option.some.inj hsignal)) (.sleep rfl)
  have hcall := hsleep.step (i := 0) (fun hsignal => Pc.noConfusion (Option.some.inj hsignal))
    (.callPut rfl List.mem_cons_self)
  have hput : TabRuns slabOne SignalHeard
      ⟨⟨[0x1000], 1⟩, none, [.putSignal, .getAsleep], []⟩ :=
    hcall.step (i := 0) (fun hsignal => Pc.noConfusion (Option.some.inj hsignal)) (.put rfl rfl)
  have hsignal := hput.step (i := 0) (fun _ => Or.inl ⟨1, rfl⟩) (.signal (j := 1) rfl rfl)
  exact no_lost_wakeup hsignal

/-- The element is put back and the signal sent before the other thread sleeps. -/
theorem signal_before_sleep : ∃ s, TabRuns slabOne (fun _ _ => True) s ∧ LostWakeup s := by
  have hwait := slab_one_wait (fun _ _ => True) (fun _ _ _ => trivial)
  have hcall := hwait.step (i := 0) trivial (.callPut rfl List.mem_cons_self)
  have hput : TabRuns slabOne (fun _ _ => True)
      ⟨⟨[0x1000], 1⟩, some 1, [.putSignal, .getWait], []⟩ :=
    hcall.step (i := 0) trivial (.put rfl rfl)
  have hnone : ∀ j : Nat, [Pc.putSignal, .getWait][j]? ≠ some Pc.getAsleep :=
    fun j hj => absurd (List.mem_of_getElem? hj) (by decide)
  have hsignal := hput.step (i := 0) trivial (.signalNone rfl hnone)
  have hlost : TabRuns slabOne (fun _ _ => True)
      ⟨⟨[0x1000], 1⟩, none, [.out, .getAsleep], []⟩ := hsignal.step (i := 1) trivial (.sleep rfl)
  refine ⟨_, hlost, rfl, 1, rfl, ?_⟩
  intro j pc hne hj
  cases j with
  | zero => exact (Option.some.inj hj).symm
  | succ j =>
    cases j with
    | zero => exact absurd rfl hne
    | succ j => cases hj

end Mepl
