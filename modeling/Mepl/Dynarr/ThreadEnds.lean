import Mathlib.Data.Finset.Basic
import Mathlib.Data.Fintype.EquivFin
import Mepl.Dynarr.ThreadRuns

namespace Mepl.Dynarr
open Base

def AllDone (s : Prog) : Prop := ∀ w ∈ s.threads, w.pc = .done

/-- What main knows of the threads while they run. -/
def Phase (s : Prog) : Prop :=
  match s.main with
  | .create => True
  | .join k => s.threads.length = NR_THREADS ∧
    ∀ t < k, ∀ w, s.threads[t]? = some w → w.pc = .done
  | .freeArr => s.threads.length = NR_THREADS ∧ AllDone s
  | _ => False

/-- What holds of every state of a run. -/
inductive Inv (q : Nat) (s : Prog) : Prop
  | running {h : Held Nat} {ps : List Nat} (safe : Safe q s h ps) (phase : Phase s)
  | freed {ps : List Nat} (main : s.main = .freePtrs) (done : AllDone s)
      (list : Chain s.next s.ptrs ps) (blocks : s.blocks.Perm ps) (switches : s.nswitches = 0)
  | returned (main : s.main = .returned) (done : AllDone s) (blocks : s.blocks = [])
      (switches : s.nswitches = 0)

section
variable {q t c : Nat} {s s' : Prog} {w : Worker} {h : Held Nat} {ps : List Nat}
  {who : Option Nat} {r : Res Prog}

theorem thread_busy (hstep : threadStep s t w c = some r) : w.pc ≠ .done := by
  intro hpc
  simp only [threadStep, hpc] at hstep
  cases hstep

/-- Who has been joined stays done. -/
theorem Phase.thread {pc : Pc} (hp : Phase s) (hw : s.threads[t]? = some w) (hbusy : w.pc ≠ .done)
    (hmain : s'.main = s.main) (hthreads : s'.threads = s.threads.set t { w with pc }) :
    Phase s' := by
  unfold Phase at hp ⊢
  rw [hmain]
  cases hm : s.main with
  | create => trivial
  | join k =>
    rw [hm] at hp
    obtain ⟨hlen, hjoined⟩ := hp
    refine ⟨by rw [hthreads, List.length_set, hlen], fun u hu v hv => ?_⟩
    rw [hthreads] at hv
    rcases set_get hv with ⟨rfl, -⟩ | ⟨-, hv⟩
    · exact absurd (hjoined u hu w hw) hbusy
    · exact hjoined u hu v hv
  | freeArr =>
    rw [hm] at hp
    exact absurd (hp.2 w (List.mem_of_getElem? hw)) hbusy
  | freePtrs =>
    rw [hm] at hp
    exact hp.elim
  | returned =>
    rw [hm] at hp
    exact hp.elim

theorem all_done_flatMap {f : Worker → List Nat} (hd : AllDone s)
    (hf : ∀ w : Worker, w.pc = .done → f w = []) : s.threads.flatMap f = [] :=
  List.flatMap_eq_nil_iff.mpr (fun w hw => hf w (hd w hw))

/-- A thread more, before its first number. -/
theorem Safe.create (hs : Safe q s h ps) (hlt : s.threads.length < NR_THREADS) :
    let low := s.threads.length * q
    Safe q { s with threads := s.threads ++ [⟨low, low + q, .loop low⟩] } h ps := by
  intro low
  let w : Worker := ⟨low, low + q, .loop low⟩
  have hnone : ∀ f : Worker → List Nat, f w = [] →
      (s.threads ++ [w]).flatMap f = s.threads.flatMap f := by
    intro f hf
    simp [hf]
  have hpushed : w.pushed = [] := by simp [w, Worker.pushed, Worker.upTo]
  exact {
    nums := hs.nums
    cap := hs.cap
    switches := hs.switches
    numsMut := hs.numsMut.append rfl
    ptrsMut := hs.ptrsMut.append rfl
    range := by
      intro u v hv
      rcases Nat.lt_or_ge u s.threads.length with hu | hu
      · rw [List.getElem?_append_left hu] at hv
        exact hs.range u v hv
      · rw [List.getElem?_append_right hu, List.getElem?_singleton] at hv
        split at hv
        · rename_i hzero
          cases hv
          have hu : u = s.threads.length := by omega
          subst hu
          exact ⟨rfl, rfl, Nat.le_refl _, Nat.le_add_right _ _⟩
        · cases hv
    count := by
      rw [List.length_append]
      exact hlt
    pushed := (hnone _ hpushed).symm ▸ hs.pushed
    list := hs.list
    blocks := (hnone Worker.held rfl).symm ▸ hs.blocks
    nodup := hs.nodup
    vars := (hnone Worker.unset rfl).symm ▸ hs.vars }

theorem Safe.main_to (hs : Safe q s h ps) (m : MainPc) : Safe q { s with main := m } h ps :=
  ⟨hs.nums, hs.cap, hs.switches, hs.numsMut, hs.ptrsMut, hs.range, hs.count, hs.pushed, hs.list,
    hs.blocks, hs.nodup, hs.vars⟩

/-- One step of main while the threads run. -/
theorem Safe.main (hs : Safe q s h ps) (hp : Phase s) (hstep : mainStep q s = some r) :
    ∃ s', r = .ok s' ∧ Inv q s' := by
  unfold mainStep at hstep
  split at hstep
  case h_1 hm =>
    split at hstep
    · rename_i hlt
      cases hstep
      refine ⟨_, rfl, .running (hs.create hlt) ?_⟩
      simp [Phase, hm]
    · rename_i hge
      cases hstep
      have hlen : s.threads.length = NR_THREADS :=
        Nat.le_antisymm hs.count (Nat.le_of_not_lt hge)
      exact ⟨_, rfl, .running (hs.main_to _) ⟨hlen, by simp⟩⟩
  case h_2 k hm =>
    simp only [Phase, hm] at hp
    obtain ⟨hlen, hjoined⟩ := hp
    split at hstep
    · split at hstep
      · rename_i hdone
        cases hstep
        refine ⟨_, rfl, .running (hs.main_to _) ⟨hlen, fun t ht w hw => ?_⟩⟩
        rcases Nat.lt_succ_iff_lt_or_eq.mp ht with ht | rfl
        · exact hjoined t ht w hw
        · change s.threads[t]? = some w at hw
          simpa [hw] using hdone
      · cases hstep
    · rename_i hge
      cases hstep
      refine ⟨_, rfl, .running (hs.main_to _) ⟨hlen, fun w hw => ?_⟩⟩
      obtain ⟨t, ht⟩ := List.mem_iff_getElem?.mp hw
      have hlt : t < s.threads.length := (List.getElem?_eq_some_iff.mp ht).1
      exact hjoined t (by omega) w ht
  case h_3 hm =>
    simp only [Phase, hm] at hp
    have hheld := all_done_flatMap (f := Worker.held) hp.2 (fun w hw => by simp [Worker.held, hw])
    have hunset := all_done_flatMap (f := Worker.unset) hp.2
      (fun w hw => by simp [Worker.unset, hw])
    have hblocks := hs.blocks
    have hvars := hs.vars
    rw [hheld, List.append_nil] at hblocks
    rw [hunset, List.append_nil] at hvars
    obtain ⟨nums, blocks, hfree, hperm, -⟩ := hs.nums.free hblocks
      (List.nodup_cons.mp hs.nodup).2
      (fun r hr => hvars.mem_iff.mpr (List.mem_map_of_mem hr))
    rw [hfree] at hstep
    cases hstep
    exact ⟨_, rfl, .freed rfl hp.2 hs.list hperm hs.switches⟩
  case h_4 hm => simp only [Phase, hm] at hp
  case h_5 hm => cases hstep

/-- No step faults, and each keeps what holds of the states. -/
theorem Inv.step (hi : Inv q s) (hq : NR_THREADS * q ≤ DARR_CAP_INIT)
    (hstep : s.step q c who = some r) : ∃ s', r = .ok s' ∧ Inv q s' := by
  have hidle : AllDone s → ∀ t, s.step q c (some t) = none := by
    intro hd t
    cases hw : s.threads[t]? with
    | none => simp [Prog.step, hw]
    | some w => simp [Prog.step, hw, threadStep, hd w (List.mem_of_getElem? hw)]
  cases hi with
  | running safe phase =>
    cases who with
    | none => exact safe.main phase hstep
    | some t =>
      simp only [Prog.step] at hstep
      split at hstep
      · cases hstep
      · rename_i w hw
        obtain ⟨s', h', ps', rfl, hsafe, hmain, pc, hthreads⟩ := safe.thread hq hw hstep
        exact ⟨s', rfl, .running hsafe (phase.thread hw (thread_busy hstep) hmain hthreads)⟩
  | freed main done list blocks switches =>
    cases who with
    | some t =>
      rw [hidle done t] at hstep
      cases hstep
    | none =>
      have hlen := blocks.length_eq
      simp only [Prog.step, mainStep, main] at hstep
      rw [ptrs_free_list list blocks (by omega)] at hstep
      cases hstep
      exact ⟨_, rfl, .returned rfl done rfl switches⟩
  | returned main done blocks switches =>
    cases who with
    | some t =>
      rw [hidle done t] at hstep
      cases hstep
    | none =>
      simp only [Prog.step, mainStep, main] at hstep
      cases hstep

theorem started_safe (q : Nat) (dp : Darr Nat) : Safe q (started dp) ⟨[], []⟩ [] where
  nums := init_holds dp
  cap := rfl
  switches := rfl
  numsMut := .nobody (by simp [started])
  ptrsMut := .nobody (by simp [started])
  range := by simp [started]
  count := Nat.zero_le _
  pushed := .refl _
  list := .nil
  blocks := .refl _
  nodup := List.nodup_singleton _
  vars := .refl _

theorem Reached.inv {dp : Darr Nat} (hq : NR_THREADS * q ≤ DARR_CAP_INIT)
    (hr : Reached q dp s) : Inv q s := by
  induction hr with
  | start => exact .running (started_safe q dp) trivial
  | step run call ih =>
    obtain ⟨s', he, hinv⟩ := ih.step hq call
    cases he
    exact hinv

theorem Prog.exists_fresh (s : Prog) : ∃ c, s.Fresh c := by
  obtain ⟨c, hc⟩ := Infinite.exists_notMem_finset (s.nums.dPtrs :: s.blocks).toFinset
  exact ⟨c, fun hin => hc (List.mem_toFinset.mpr hin)⟩

/-- The thread waits for a mutex. -/
def Pc.waits : Pc → Bool
  | .lock _ | .lockPtrs _ _ | .relock _ _ _ => true
  | _ => false

/-- Who waits for no mutex can go on, and so can everyone while both are free. -/
theorem thread_goes (s : Prog) (t : Nat) (hpc : w.pc ≠ .done)
    (hfree : w.pc.waits = false ∨ (s.numsMut = none ∧ s.ptrsMut = none)) :
    ∃ c r, threadStep s t w c = some r := by
  obtain ⟨c, hc⟩ := s.exists_fresh
  refine ⟨c, ?_⟩
  obtain ⟨low, high, pc⟩ := w
  have hmut : pc.waits = true → s.numsMut = none ∧ s.ptrsMut = none :=
    fun hwaits => hfree.resolve_left (by simp [hwaits])
  cases pc with
  | lock i => exact ⟨_, if_pos (hmut rfl).1⟩
  | lockPtrs i p => exact ⟨_, if_pos (hmut rfl).2⟩
  | relock i p r => exact ⟨_, if_pos (hmut rfl).1⟩
  | done => exact absurd rfl hpc
  | alloc i => exact ⟨_, if_pos hc⟩
  | point i p r => exact ⟨_, if_pos hc⟩
  | _ => exact ⟨_, rfl⟩

theorem nums_locked_goes (h : w.numsLocked = true) : w.pc ≠ .done ∧ w.pc.waits = false := by
  cases hp : w.pc <;> simp [Worker.numsLocked, Pc.waits, hp] at h ⊢

theorem ptrs_locked_goes (h : w.ptrsLocked = true) : w.pc ≠ .done ∧ w.pc.waits = false := by
  cases hp : w.pc <;> simp [Worker.ptrsLocked, Pc.waits, hp] at h ⊢

/-- Where some thread is not done, some thread can go on: who has a mutex waits
for none. -/
theorem Safe.goes (hs : Safe q s h ps) (hw : s.threads[t]? = some w) (hpc : w.pc ≠ .done) :
    ∃ c u r, s.step q c (some u) = some r := by
  have hone : ∀ (u : Nat) (v : Worker), s.threads[u]? = some v → v.pc ≠ .done →
      (v.pc.waits = false ∨ (s.numsMut = none ∧ s.ptrsMut = none)) →
      ∃ c u r, s.step q c (some u) = some r := by
    intro u v hv hbusy hfree
    obtain ⟨c, r, hstep⟩ := thread_goes s u hbusy hfree
    exact ⟨c, u, r, by simp only [Prog.step, hv, hstep]⟩
  cases hnums : s.numsMut with
  | some u =>
    obtain ⟨v, hv, hlocked⟩ := hs.numsMut.holder u hnums
    obtain ⟨hbusy, hgoes⟩ := nums_locked_goes hlocked
    exact hone u v hv hbusy (Or.inl hgoes)
  | none =>
    cases hptrs : s.ptrsMut with
    | some u =>
      obtain ⟨v, hv, hlocked⟩ := hs.ptrsMut.holder u hptrs
      obtain ⟨hbusy, hgoes⟩ := ptrs_locked_goes hlocked
      exact hone u v hv hbusy (Or.inl hgoes)
    | none => exact hone t w hw hpc (Or.inr ⟨hnums, hptrs⟩)

/-- There is no deadlock. -/
theorem Inv.goes (hi : Inv q s) (hmain : s.main ≠ .returned) :
    ∃ c who r, s.step q c who = some r := by
  cases hm : s.main with
  | create =>
    refine ⟨0, none, ?_⟩
    simp only [Prog.step, mainStep, hm]
    split
    · exact ⟨_, rfl⟩
    · exact ⟨_, rfl⟩
  | join k =>
    cases hi with
    | running safe phase =>
      simp only [Phase, hm] at phase
      by_cases hk : k < NR_THREADS
      · have hlt : k < s.threads.length := by omega
        have hw := List.getElem?_eq_getElem hlt
        by_cases hdone : s.threads[k].pc = .done
        · refine ⟨0, none, ?_⟩
          simp only [Prog.step, mainStep, hm, if_pos hk, hw, Option.map_some, hdone, if_true]
          exact ⟨_, rfl⟩
        · obtain ⟨c, u, r, hstep⟩ := safe.goes hw hdone
          exact ⟨c, some u, r, hstep⟩
      · refine ⟨0, none, ?_⟩
        simp only [Prog.step, mainStep, hm, if_neg hk]
        exact ⟨_, rfl⟩
    | freed main =>
      rw [hm] at main
      cases main
    | returned main =>
      rw [hm] at main
      cases main
  | freeArr =>
    refine ⟨0, none, ?_⟩
    simp only [Prog.step, mainStep, hm]
    exact ⟨_, rfl⟩
  | freePtrs =>
    refine ⟨0, none, ?_⟩
    simp only [Prog.step, mainStep, hm]
    exact ⟨_, rfl⟩
  | returned => exact absurd hm hmain

/-- What holds of a state of the program, whatever led to it. -/
structure Sound (q : Nat) (s : Prog) : Prop where
  /-- no access outside an object or to a freed block, no division by zero -/
  faultless : ∀ c who e, s.step q c who ≠ some (.error e)
  /-- one thread at a time has nums in its hands -/
  exclusive : ∀ (t u : Nat) (a b : Worker), s.threads[t]? = some a → s.threads[u]? = some b →
    a.numsLocked = true → b.numsLocked = true → t = u
  /-- no deadlock -/
  goes : s.main ≠ .returned → ∃ c who s', s.step q c who = some (.ok s')
  /-- nothing malloc() returned is left, and the array never moved -/
  freed : s.main = .returned → s.blocks = [] ∧ s.nswitches = 0

theorem Inv.sound (hi : Inv q s) (hq : NR_THREADS * q ≤ DARR_CAP_INIT) : Sound q s where
  faultless := by
    intro c who e hstep
    obtain ⟨s', he, -⟩ := hi.step hq hstep
    cases he
  exclusive := by
    intro t u a b ha hb hla hlb
    have hdone : AllDone s → t = u := by
      intro hd
      exact absurd (hd a (List.mem_of_getElem? ha)) (nums_locked_goes hla).1
    cases hi with
    | running safe phase => exact safe.numsMut.exclusive ha hb hla hlb
    | freed main done => exact hdone done
    | returned main done => exact hdone done
  goes := by
    intro hmain
    obtain ⟨c, who, r, hstep⟩ := hi.goes hmain
    obtain ⟨s', rfl, -⟩ := hi.step hq hstep
    exact ⟨c, who, s', hstep⟩
  freed := by
    intro hmain
    cases hi with
    | running safe phase =>
      rw [Phase, hmain] at phase
      exact phase.elim
    | freed main =>
      rw [hmain] at main
      cases main
    | returned main done blocks switches => exact ⟨blocks, switches⟩

/-- The statements a thread has still to execute, and more. -/
def Worker.left (w : Worker) : Nat :=
  match w.pc with
  | .loop i => 13 * (w.high - i) + 1
  | .lock i => 13 * (w.high - i)
  | .push i => 13 * (w.high - i) - 1
  | .release i => 13 * (w.high - i) - 2
  | .alloc i => 13 * (w.high - i) - 3
  | .lockPtrs i _ => 13 * (w.high - i) - 4
  | .link i _ => 13 * (w.high - i) - 5
  | .unlockPtrs i _ => 13 * (w.high - i) - 6
  | .draw i _ => 13 * (w.high - i) - 7
  | .relock i _ _ => 13 * (w.high - i) - 8
  | .point i _ _ => 13 * (w.high - i) - 9
  | .unlock i => 13 * (w.high - i) - 10
  | .done => 0

def MainPc.left (q threads : Nat) : MainPc → Nat
  | .create => (NR_THREADS - threads) * (13 * q + 2) + NR_THREADS + 4
  | .join k => NR_THREADS - k + 3
  | .freeArr => 2
  | .freePtrs => 1
  | .returned => 0

def Prog.left (q : Nat) (s : Prog) : Nat :=
  s.main.left q s.threads.length + (s.threads.map Worker.left).sum

theorem left_set {threads : List Worker} {w' : Worker} (hw : threads[t]? = some w)
    (hlt : w'.left < w.left) :
    ((threads.set t w').map Worker.left).sum < (threads.map Worker.left).sum := by
  induction threads generalizing t with
  | nil => cases hw
  | cons v threads ih =>
    cases t with
    | zero =>
      cases hw
      simp only [List.set_cons_zero, List.map_cons, List.sum_cons]
      omega
    | succ t =>
      have hrest := ih hw
      simp only [List.set_cons_succ, List.map_cons, List.sum_cons]
      omega

/-- A thread that moves to a place with less before it. -/
theorem left_go {pc : Pc} (hlt : Worker.left { w with pc } < w.left)
    (hthreads : s'.threads = s.threads.set t { w with pc }) (hmain : s'.main = s.main) :
    ∃ w', s'.threads = s.threads.set t w' ∧ s'.main = s.main ∧ w'.left < w.left :=
  ⟨_, hthreads, hmain, hlt⟩

theorem thread_left (hwithin : w.Within) (hstep : threadStep s t w c = some (.ok s')) :
    ∃ w', s'.threads = s.threads.set t w' ∧ s'.main = s.main ∧ w'.left < w.left := by
  unfold threadStep at hstep
  split at hstep
  case h_1 i hpc =>
    cases hstep
    refine left_go ?_ rfl rfl
    split
    · simp only [Worker.left, hpc]
      omega
    · simp only [Worker.left, hpc]
      omega
  case h_2 i hpc =>
    split at hstep
    · cases hstep
      simp only [Worker.Within, hpc] at hwithin
      exact left_go (by simp only [Worker.left, hpc]; omega) rfl rfl
    · cases hstep
  case h_3 i hpc =>
    rw [Option.some.injEq, bind_ok] at hstep
    obtain ⟨nums, -, hstep⟩ := hstep
    cases hstep
    simp only [Worker.Within, hpc] at hwithin
    refine left_go ?_ rfl rfl
    split
    · simp only [Worker.left, hpc]
      omega
    · simp only [Worker.left, hpc]
      omega
  case h_4 i hpc =>
    cases hstep
    simp only [Worker.Within, hpc] at hwithin
    exact left_go (by simp only [Worker.left, hpc]; omega) rfl rfl
  case h_5 i hpc =>
    split at hstep
    · cases hstep
      simp only [Worker.Within, hpc] at hwithin
      exact left_go (by simp only [Worker.left, hpc]; omega) rfl rfl
    · cases hstep
  case h_6 i p hpc =>
    split at hstep
    · cases hstep
      simp only [Worker.Within, hpc] at hwithin
      exact left_go (by simp only [Worker.left, hpc]; omega) rfl rfl
    · cases hstep
  case h_7 i p hpc =>
    split at hstep
    · cases hstep
      simp only [Worker.Within, hpc] at hwithin
      exact left_go (by simp only [Worker.left, hpc]; omega) rfl rfl
    · cases hstep
  case h_8 i p hpc =>
    cases hstep
    simp only [Worker.Within, hpc] at hwithin
    exact left_go (by simp only [Worker.left, hpc]; omega) rfl rfl
  case h_9 i p hpc =>
    cases hstep
    simp only [Worker.Within, hpc] at hwithin
    exact left_go (by simp only [Worker.left, hpc]; omega) rfl rfl
  case h_10 i p r hpc =>
    split at hstep
    · cases hstep
      simp only [Worker.Within, hpc] at hwithin
      exact left_go (by simp only [Worker.left, hpc]; omega) rfl rfl
    · cases hstep
  case h_11 i p r hpc =>
    split at hstep
    · split at hstep
      · cases hstep
      · cases hstep
        simp only [Worker.Within, hpc] at hwithin
        exact left_go (by simp only [Worker.left, hpc]; omega) rfl rfl
    · cases hstep
  case h_12 i hpc =>
    cases hstep
    simp only [Worker.Within, hpc] at hwithin
    exact left_go (by simp only [Worker.left, hpc]; omega) rfl rfl
  case h_13 => cases hstep

theorem main_left (hstep : mainStep q s = some (.ok s')) : s'.left q < s.left q := by
  unfold mainStep at hstep
  split at hstep
  case h_1 hm =>
    split at hstep
    · rename_i hlt
      cases hstep
      obtain ⟨d, hd⟩ := Nat.exists_eq_add_of_lt hlt
      have hnow : NR_THREADS - s.threads.length = d + 1 := by omega
      have hnext : NR_THREADS - (s.threads.length + 1) = d := by omega
      simp only [Prog.left, MainPc.left, hm, List.length_append, List.length_singleton, hnow, hnext,
        List.map_append, List.map_cons, List.map_nil, List.sum_append, List.sum_singleton,
        Worker.left, Nat.succ_mul]
      omega
    · cases hstep
      simp only [Prog.left, MainPc.left, hm]
      omega
  case h_2 k hm =>
    split at hstep
    · split at hstep
      · cases hstep
        simp only [Prog.left, MainPc.left, hm]
        omega
      · cases hstep
    · cases hstep
      simp only [Prog.left, MainPc.left, hm]
      omega
  case h_3 hm =>
    rw [Option.some.injEq, bind_ok] at hstep
    obtain ⟨⟨nums, blocks⟩, -, hstep⟩ := hstep
    cases hstep
    simp only [Prog.left, MainPc.left, hm]
    omega
  case h_4 hm =>
    rw [Option.some.injEq, bind_ok] at hstep
    obtain ⟨blocks, -, hstep⟩ := hstep
    cases hstep
    simp only [Prog.left, MainPc.left, hm]
    omega
  case h_5 hm => cases hstep

theorem Inv.left (hi : Inv q s) (hstep : s.step q c who = some (.ok s')) :
    s'.left q < s.left q := by
  cases who with
  | none => exact main_left hstep
  | some t =>
    simp only [Prog.step] at hstep
    split at hstep
    · cases hstep
    · rename_i w hw
      have hwithin : w.Within := by
        have hdone : AllDone s → w.Within := by
          intro hd
          exact absurd (hd w (List.mem_of_getElem? hw)) (thread_busy hstep)
        cases hi with
        | running safe => exact (safe.range t w hw).2.2
        | freed main done => exact hdone done
        | returned main done => exact hdone done
      obtain ⟨w', hthreads, hmain, hlt⟩ := thread_left hwithin hstep
      have hsum := left_set hw hlt
      simp only [Prog.left, hmain, hthreads, List.length_set]
      omega

/-- A schedule: every state comes from the one before by some step. -/
def Schedule (q : Nat) (run : Nat → Prog) : Prop :=
  ∀ n, ∃ c who, (run n).step q c who = some (.ok (run (n + 1)))

theorem no_schedule {dp : Darr Nat} (hq : NR_THREADS * q ≤ DARR_CAP_INIT) {run : Nat → Prog}
    (hstart : run 0 = started dp) : ¬ Schedule q run := by
  intro hrun
  have hreached : ∀ n, Reached q dp (run n) := by
    intro n
    induction n with
    | zero => exact hstart ▸ .start
    | succ n ih =>
      obtain ⟨c, who, hstep⟩ := hrun n
      exact .step ih hstep
  have hleft : ∀ n, (run n).left q + n ≤ (run 0).left q := by
    intro n
    induction n with
    | zero => exact Nat.le_refl _
    | succ n ih =>
      obtain ⟨c, who, hstep⟩ := hrun n
      have hlt := ((hreached n).inv hq).left hstep
      omega
  have hend := hleft ((run 0).left q + 1)
  omega

/-- For every order in which the threads run and all that malloc() and rand()
return: no statement faults, one thread at a time uses nums, there is no
deadlock, every run ends, and where main returns every block has been freed. -/
theorem threads_sound (dp : Darr Nat) (q : Nat) (hq : NR_THREADS * q ≤ DARR_CAP_INIT) :
    (∀ s, Reached q dp s → Sound q s) ∧
      ∀ run : Nat → Prog, run 0 = started dp → ¬ Schedule q run :=
  ⟨fun _ hr => (hr.inv hq).sound hq, fun _ hstart => no_schedule hq hstart⟩

theorem threads_sound_five :
    (∀ s, Reached 5 oneCell s → Sound 5 s) ∧
      ∀ run : Nat → Prog, run 0 = started oneCell → ¬ Schedule 5 run :=
  threads_sound oneCell 5 (by decide)

theorem ranges_flatMap (q n : Nat) :
    (List.range n).flatMap (fun t => List.range' (t * q) q) = List.range (n * q) := by
  induction n with
  | zero => simp
  | succ n ih =>
    rw [List.range_succ, List.flatMap_append, ih, List.flatMap_singleton, Nat.succ_mul,
      List.range_eq_range', List.range_eq_range']
    have happend : List.range' 0 (n * q) 1 ++ List.range' (0 + 1 * (n * q)) q 1 =
        List.range' 0 (n * q + q) 1 := List.range'_append
    simpa using happend

/-- Where all threads are done, the numbers they have pushed are the ranges. -/
theorem Safe.all_pushed (hs : Safe q s h ps) (hlen : s.threads.length = NR_THREADS)
    (hd : AllDone s) : s.threads.flatMap Worker.pushed = List.range (NR_THREADS * q) := by
  have hthreads : s.threads = (List.range NR_THREADS).map
      (fun t => ⟨t * q, t * q + q, .done⟩) := by
    apply List.ext_getElem?
    intro t
    rw [List.getElem?_map]
    rcases Nat.lt_or_ge t NR_THREADS with ht | ht
    · have hlt : t < s.threads.length := by omega
      obtain ⟨⟨low, high, pc⟩, hw⟩ : ∃ w, s.threads[t]? = some w :=
        ⟨_, List.getElem?_eq_getElem hlt⟩
      obtain ⟨hlow, hhigh, -⟩ := hs.range t _ hw
      have hpc := hd _ (List.mem_of_getElem? hw)
      simp only at hlow hhigh hpc
      rw [hw, List.getElem?_range ht, Option.map_some, hlow, hhigh, hpc]
    · rw [List.getElem?_eq_none (by omega), List.getElem?_eq_none (by simpa using ht)]
      rfl
  rw [hthreads, List.flatMap_map, ← ranges_flatMap]
  simp [Worker.pushed, Worker.upTo]

/-- Where main has joined the threads, for every order in which they ran: nums
holds every number of the ranges once, and each struct ptr on the list has its
pointer registered once, to an element. -/
theorem threads_held {dp : Darr Nat} (hq : NR_THREADS * q ≤ DARR_CAP_INIT)
    (hr : Reached q dp s) (hmain : s.main = .freeArr) :
    ∃ h ps, Holds s.nums h ∧ h.xs.Perm (List.range (NR_THREADS * q)) ∧
      Chain s.next s.ptrs ps ∧ ps.Perm (h.regs.map Registered.var) ∧
      s.blocks.Perm (ps ++ h.regs.map Registered.node) := by
  cases hr.inv hq with
  | running safe phase =>
    simp only [Phase, hmain] at phase
    obtain ⟨hlen, hd⟩ := phase
    have hblocks := safe.blocks
    have hvars := safe.vars
    rw [all_done_flatMap (f := Worker.held) hd (fun w hw => by simp [Worker.held, hw]),
      List.append_nil] at hblocks
    rw [all_done_flatMap (f := Worker.unset) hd (fun w hw => by simp [Worker.unset, hw]),
      List.append_nil] at hvars
    exact ⟨_, _, safe.nums, safe.all_pushed hlen hd ▸ safe.pushed, safe.list, hvars, hblocks⟩
  | freed main =>
    rw [hmain] at main
    cases main
  | returned main =>
    rw [hmain] at main
    cases main

/-- main still creates or joins threads. -/
def MainPc.joins : MainPc → Bool
  | .create | .join _ => true
  | _ => false

theorem main_joins (hm : s.main.joins = true) (hstep : mainStep q s = some (.ok s')) :
    s'.main.joins = true ∨ s'.main = .freeArr := by
  unfold mainStep at hstep
  split at hstep
  case h_1 hmain =>
    split at hstep
    · cases hstep
      exact Or.inl hm
    · cases hstep
      exact Or.inl rfl
  case h_2 k hmain =>
    split at hstep
    · split at hstep
      · cases hstep
        exact Or.inl rfl
      · cases hstep
    · cases hstep
      exact Or.inr rfl
  case h_3 hmain =>
    rw [hmain] at hm
    cases hm
  case h_4 hmain =>
    rw [hmain] at hm
    cases hm
  case h_5 hmain => cases hstep

/-- Every run up to there can be continued until main has joined the threads. -/
theorem Reached.joined {dp : Darr Nat} (hq : NR_THREADS * q ≤ DARR_CAP_INIT)
    (hr : Reached q dp s) (hm : s.main.joins = true) :
    ∃ s', Reached q dp s' ∧ s'.main = .freeArr := by
  induction hn : s.left q using Nat.strong_induction_on generalizing s with
  | _ n ih =>
    have hinv := hr.inv hq
    have hne : s.main ≠ .returned := by
      intro he
      rw [he] at hm
      cases hm
    obtain ⟨c, who, s', hstep⟩ := (hinv.sound hq).goes hne
    have hr' := hr.step hstep
    have hlt := hinv.left hstep
    have hmain : s'.main.joins = true ∨ s'.main = .freeArr := by
      cases who with
      | none => exact main_joins hm hstep
      | some t =>
        simp only [Prog.step] at hstep
        split at hstep
        · cases hstep
        · rename_i w hw
          cases hinv with
          | running safe =>
            obtain ⟨s₁, -, -, he, -, hsame, -⟩ := safe.thread hq hw hstep
            cases he
            exact Or.inl (hsame ▸ hm)
          | freed main done => exact absurd (done w (List.mem_of_getElem? hw)) (thread_busy hstep)
          | returned main done =>
            exact absurd (done w (List.mem_of_getElem? hw)) (thread_busy hstep)
    rcases hmain with hmain | hmain
    · exact ih (s'.left q) (by omega) hr' hmain rfl
    · exact ⟨s', hr', hmain⟩

theorem threads_held_five : ∃ s, Reached 5 oneCell s ∧ s.main = .freeArr ∧
    ∃ h ps, Holds s.nums h ∧ h.xs.Perm (List.range (NR_THREADS * 5)) ∧
      Chain s.next s.ptrs ps ∧ ps.Perm (h.regs.map Registered.var) ∧
      s.blocks.Perm (ps ++ h.regs.map Registered.node) := by
  have hstart : Reached 5 oneCell (started oneCell) := .start
  obtain ⟨s, hr, hmain⟩ := hstart.joined (by decide) rfl
  exact ⟨s, hr, hmain, threads_held (by decide) hr hmain⟩

end

end Mepl.Dynarr
