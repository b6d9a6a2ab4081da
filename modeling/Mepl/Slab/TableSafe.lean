import Mepl.Base.Mutex
import Mepl.Slab.TableRuns

namespace Mepl
open Base

/-- The element that a thread has while no caller has it. -/
def Pc.elems : Pc → List Nat
  | .getUnlock p | .putSlab p => [p]
  | _ => []

/-- The elements that are not in the slab. -/
def SlabTabEntry.outside (s : SlabTabEntry) : List Nat := s.live ++ s.threads.flatMap Pc.elems

/-- The thread is in a call and not asleep. -/
def Pc.busy : Pc → Bool
  | .out | .getAsleep => false
  | _ => true

/-- What holds of a slab_tab_entry in every state of every run. -/
structure TabSound (t : SlabType) (s : SlabTabEntry) : Prop where
  /-- the free elements and those outside are the pool, each once -/
  conserved : SlabConserved t s.steSlab s.outside
  /-- every pointer that is put back passes the test that ptr_mine makes with -DDBUG -/
  mine : ∀ p ∈ s.outside, doSlabMine t p = true
  /-- s_get finds an element, and one that nobody has -/
  gets : ∀ i : Nat, s.threads[i]? = some Pc.getSlab →
    ∃ sp p, doSlabGet s.steSlab = .ok (sp, p) ∧ p ∉ s.outside
  /-- s_put finds room -/
  puts : ∀ i p : Nat, s.threads[i]? = some (Pc.putSlab p) →
    ∃ sp, doSlabPut s.steSlab p = .ok sp
  /-- one thread at a time is between MUTEX_LOCK and the release -/
  exclusive : ∀ (i j : Nat) (a b : Pc), s.threads[i]? = some a → s.threads[j]? = some b →
    a.locked = true → b.locked = true → i = j
  /-- no deadlock: while a thread is in a call and not asleep, such a thread can go on -/
  goes : (∃ pc ∈ s.threads, pc.busy = true) →
    ∃ (i : Nat) (pc : Pc) (s' : SlabTabEntry), s.threads[i]? = some pc ∧ pc.busy = true ∧
      TabStep s i s'
  /-- do_NAME_full, which full_check asks with -DDBUG, is true exactly when all is back -/
  full : doSlabFull t s.steSlab = true ↔ s.outside = []

section
variable {t : SlabType} {s s' : SlabTabEntry} {sp : SlabStack} {live live' : List Nat} {i p : Nat}
  {pc : Pc}

/-- A thread that keeps its element, or the lack of one. -/
theorem outside_go (hpc : s.threads[i]? = some pc) {pc' : Pc} (hsame : pc'.elems = pc.elems) :
    s.outside.Perm (s.go i pc').outside :=
  (flatMap_set_same hpc hsame).symm.append_left _

theorem tab_step_conserved (h : SlabConserved t s.steSlab s.outside) (hsafe : TabSafe t s)
    (hs : TabStep s i s') : SlabConserved t s'.steSlab s'.outside := by
  cases hs with
  | callGet pc => exact h.perm (outside_go pc rfl)
  | @callPut p pc owned =>
    refine h.perm ?_
    have hmore := flatMap_set_more (f := Pc.elems) (b := .putSlab p) pc rfl
    refine ((List.perm_cons_erase owned).append_right _).trans ?_
    refine List.Perm.trans ?_ (hmore.symm.append_left _)
    rw [← List.append_assoc]
    exact (List.perm_append_singleton p _).symm
  | lock pc free => exact h.perm (outside_go pc rfl)
  | test pc =>
    refine h.perm (outside_go pc ?_)
    split <;> rfl
  | sleep pc => exact h.perm (outside_go pc rfl)
  | wake pc => exact h.perm (outside_go pc rfl)
  | relock pc free => exact h.perm (outside_go pc rfl)
  | @get p sp pc call =>
    have havail : doSlabEmpty s.steSlab = false := by
      simpa [doSlabEmpty] using hsafe.avail i _ pc rfl
    obtain ⟨sp', p', hget, hafter⟩ := h.get havail
    rw [call] at hget
    cases hget
    refine hafter.perm ?_
    have hmore := flatMap_set_more (f := Pc.elems) (b := .getUnlock p) pc rfl
    refine List.Perm.trans ?_ (hmore.symm.append_left _)
    rw [← List.append_assoc]
    exact (List.perm_append_singleton p _).symm
  | @unlock p pc =>
    refine h.perm ?_
    have helems : Pc.elems (.getUnlock p) = Pc.elems .out ++ [p] := rfl
    have hless := flatMap_set_less pc helems
    refine (hless.symm.append_left _).trans ?_
    rw [← List.append_assoc]
    exact List.perm_append_singleton p _
  | @put p sp pc call =>
    have helems : Pc.elems (.putSlab p) = Pc.elems .putSignal ++ [p] := rfl
    have hless := flatMap_set_less pc helems
    have hout : (s.live ++ (s.threads.set i .putSignal).flatMap Pc.elems ++ [p]).Perm
        s.outside := by
      rw [List.append_assoc]
      exact hless.append_left _
    have hmem : p ∈ s.outside := hout.subset (List.mem_append_right _ (List.mem_singleton_self p))
    obtain ⟨sp', hput, hafter⟩ := h.put hmem
    rw [call] at hput
    cases hput
    refine hafter.perm (((hout.symm.trans (List.perm_append_singleton p _)).erase p).trans ?_)
    rw [List.erase_cons_head]
    exact .refl _
  | @signal j pc asleep =>
    have hwoken : s.outside.Perm (s.go j .getWoken).outside := outside_go asleep rfl
    have pc' : (s.go j .getWoken).threads[i]? = some .putSignal := signal_after_wake pc asleep
    exact h.perm (hwoken.trans (outside_go pc' rfl))
  | signalNone pc none => exact h.perm (outside_go pc rfl)

theorem tab_step_guards (h : Guards s.steMut Pc.locked s.threads) (hs : TabStep s i s') :
    Guards s'.steMut Pc.locked s'.threads := by
  cases hs with
  | callGet pc => exact h.stay pc rfl
  | callPut pc owned => exact h.stay pc rfl
  | lock pc free => exact (free ▸ h).lock pc rfl
  | test pc =>
    refine h.stay pc ?_
    split <;> rfl
  | sleep pc => exact h.unlock pc rfl rfl
  | wake pc => exact h.stay pc rfl
  | relock pc free => exact (free ▸ h).lock pc rfl
  | get pc call => exact h.stay pc rfl
  | unlock pc => exact h.unlock pc rfl rfl
  | put pc call => exact h.stay pc rfl
  | @signal j pc asleep =>
    have hwoken : Guards s.steMut Pc.locked (s.threads.set j .getWoken) := h.stay asleep rfl
    exact hwoken.stay (signal_after_wake pc asleep) rfl
  | signalNone pc none => exact h.stay pc rfl

theorem tab_start_all_out (n : Nat) : ∀ pc ∈ List.replicate n Pc.out, pc = .out :=
  fun _ h => List.eq_of_mem_replicate h

theorem tab_runs_conserved {ok : SlabTabEntry → Nat → Prop} (h : TabRuns t ok s) :
    SlabConserved t s.steSlab s.outside := by
  induction h with
  | @start sp sp' n array call =>
    obtain ⟨sp₁, hrun, hconserved⟩ := slab_init_conserved array
    rw [hrun] at call
    cases call
    refine hconserved.perm (.of_eq (List.flatMap_eq_nil_iff.mpr ?_).symm)
    intro pc hpc
    rw [tab_start_all_out n pc hpc]
    rfl
  | step run meets step ih => exact tab_step_conserved ih (tab_runs_safe run) step

theorem tab_runs_guards {ok : SlabTabEntry → Nat → Prop} (h : TabRuns t ok s) :
    Guards s.steMut Pc.locked s.threads := by
  induction h with
  | start n array call =>
    refine .nobody (fun pc hpc => ?_)
    rw [tab_start_all_out n pc hpc]
    rfl
  | step run meets step ih => exact tab_step_guards ih step

theorem SlabConserved.put_room (h : SlabConserved t sp live) (hp : p ∈ live) :
    ∃ sp', doSlabPut sp p = .ok sp' := by
  obtain ⟨sp', hput, -⟩ := h.put hp
  exact ⟨sp', hput⟩

theorem outside_put (hpc : s.threads[i]? = some (Pc.putSlab p)) : p ∈ s.outside :=
  List.mem_append_right _ (List.mem_flatMap.mpr
    ⟨_, List.mem_of_getElem? hpc, List.mem_singleton_self p⟩)

/-- Who has the mutex can go on. -/
theorem locked_goes (h : SlabConserved t s.steSlab s.outside) (hsafe : TabSafe t s)
    (hpc : s.threads[i]? = some pc) (hlocked : pc.locked = true) : ∃ s', TabStep s i s' := by
  cases pc with
  | getTest => exact ⟨_, .test hpc⟩
  | getWait => exact ⟨_, .sleep hpc⟩
  | getSlab =>
    have havail : doSlabEmpty s.steSlab = false := by
      simpa [doSlabEmpty] using hsafe.avail i _ hpc rfl
    obtain ⟨sp, p, hget, -⟩ := h.get havail
    exact ⟨_, .get hpc hget⟩
  | getUnlock p => exact ⟨_, .unlock hpc⟩
  | _ => cases hlocked

/-- So can every thread in a call that is not asleep, while nobody has it. -/
theorem free_goes (h : SlabConserved t s.steSlab s.outside) (hsafe : TabSafe t s)
    (hmut : s.steMut = none) (hpc : s.threads[i]? = some pc) (hbusy : pc.busy = true) :
    ∃ s', TabStep s i s' := by
  cases hl : pc.locked with
  | true => exact locked_goes h hsafe hpc hl
  | false =>
    cases pc with
    | getLock => exact ⟨_, .lock hpc hmut⟩
    | getWoken => exact ⟨_, .relock hpc hmut⟩
    | putSlab p =>
      obtain ⟨sp, hput⟩ := h.put_room (outside_put hpc)
      exact ⟨_, .put hpc hput⟩
    | putSignal =>
      by_cases hnone : ∀ j : Nat, s.threads[j]? ≠ some Pc.getAsleep
      · exact ⟨_, .signalNone hpc hnone⟩
      · obtain ⟨j, hj⟩ := not_forall_not.mp hnone
        exact ⟨_, .signal hpc hj⟩
    | out => cases hbusy
    | getAsleep => cases hbusy
    | getTest | getWait | getSlab | getUnlock p => cases hl

theorem locked_busy (h : pc.locked = true) : pc.busy = true := by
  cases pc with
  | getTest | getWait | getSlab | getUnlock p => rfl
  | _ => cases h

/-- For any number of threads and every order of their steps, signals heard or
not: no element is lost or in two hands, the calls of the slab never go outside
its array, and the threads never block each other for good but by sleeping. -/
theorem tab_runs_sound {ok : SlabTabEntry → Nat → Prop} (h : TabRuns t ok s) : TabSound t s := by
  have hsafe := tab_runs_safe h
  have hconserved := tab_runs_conserved h
  have hguards := tab_runs_guards h
  refine ⟨hconserved, ?_, ?_, ?_, ?_, ?_, hconserved.full_iff⟩
  · intro p hp
    exact slab_elems_mine (hconserved.pool.subset (List.mem_append_right _ hp))
  · intro i hi
    have havail : doSlabEmpty s.steSlab = false := by
      simpa [doSlabEmpty] using hsafe.avail i _ hi rfl
    obtain ⟨sp, p, hget, hafter⟩ := hconserved.get havail
    have hnodup := (List.nodup_append.mp hafter.nodup).2.1
    exact ⟨sp, p, hget, (List.nodup_cons.mp hnodup).1⟩
  · intro i p hi
    exact hconserved.put_room (outside_put hi)
  · intro i j a b hi hj ha hb
    exact hguards.exclusive hi hj ha hb
  · rintro ⟨pc, hmem, hbusy⟩
    obtain ⟨i, hi⟩ := List.mem_iff_getElem?.mp hmem
    cases hmut : s.steMut with
    | none =>
      obtain ⟨s', hstep⟩ := free_goes hconserved hsafe hmut hi hbusy
      exact ⟨i, pc, s', hi, hbusy, hstep⟩
    | some j =>
      obtain ⟨a, ha, hlocked⟩ := hguards.holder j hmut
      obtain ⟨s', hstep⟩ := locked_goes hconserved hsafe ha hlocked
      exact ⟨j, a, s', ha, locked_busy hlocked, hstep⟩

end

/-- One thread has the only element, the other has found none. -/
theorem tab_runs_sound_one :
    TabSound slabOne ⟨⟨[0x1000], 0⟩, some 1, [.out, .getWait], [0x1000]⟩ :=
  tab_runs_sound (slab_one_wait (fun _ _ => True) (fun _ _ _ => trivial))

end Mepl
