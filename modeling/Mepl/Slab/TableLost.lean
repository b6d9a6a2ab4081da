import Mathlib.Logic.Relation
import Mepl.Slab.TableRuns

namespace Mepl
open Relation

def TabMove (s s' : SlabTabEntry) : Prop := ∃ i, TabStep s i s'

/-- The thread is still to take an element or find none. -/
def Pc.awake : Pc → Bool
  | .getLock | .getTest | .getWoken | .getSlab => true
  | _ => false

def Pc.putting : Pc → Bool
  | .putSlab _ | .putSignal => true
  | _ => false

/-- Where a thread is once those that q picks have returned. -/
def Pc.after (q : Pc → Bool) (pc : Pc) : Pc := if q pc then .out else pc

section
variable {t : SlabType} {s s' : SlabTabEntry} {threads : List Pc} {i j w : Nat} {pc : Pc}
  {q : Pc → Bool}

theorem TabSafe.moves (h : TabSafe t s) (hr : ReflTransGen TabMove s s') : TabSafe t s' := by
  induction hr with
  | refl => exact h
  | tail _ step ih =>
    obtain ⟨i, hstep⟩ := step
    exact tab_step_safe ih hstep

/-- s_put has room for the element it is given. -/
theorem TabSafe.put {p : Nat} (h : TabSafe t s) (hi : s.threads[i]? = some (Pc.putSlab p)) :
    ∃ sp, doSlabPut s.steSlab p = .ok sp := by
  have hpos : 0 < s.threads.countP Pc.holding :=
    List.countP_pos_iff.mpr ⟨_, List.mem_of_getElem? hi, rfl⟩
  have hcount := h.count
  have hlt : s.steSlab.fp < s.steSlab.free.length := by
    rw [h.array]
    omega
  rw [doSlabPut, store_lt hlt]
  exact ⟨_, rfl⟩

/-- s_get finds the element that the test promised. -/
theorem TabSafe.get (h : TabSafe t s) (hne : s.steSlab.fp ≠ 0) :
    ∃ sp p, doSlabGet s.steSlab = .ok (sp, p) := by
  have hcount := h.count
  have hlt : s.steSlab.fp - 1 < s.steSlab.free.length := by
    rw [h.array]
    omega
  have hget : doSlabGet s.steSlab =
      .ok ({ s.steSlab with fp := s.steSlab.fp - 1 }, s.steSlab.free[s.steSlab.fp - 1]) := by
    simp [doSlabGet, hne, load_lt hlt]
  exact ⟨_, _, hget⟩

theorem go_at (b : Pc) (hi : threads[i]? = some pc) : (threads.set i b)[i]? = some b :=
  List.getElem?_set_self (List.getElem?_eq_some_iff.mp hi).1

/-- With the mutex free and an element free, a getter that is awake gets through. -/
theorem getter_through (h : TabSafe t s) (hmut : s.steMut = none) (hne : s.steSlab.fp ≠ 0)
    (hi : s.threads[i]? = some pc) (hpc : pc = .getLock ∨ pc = .getWoken) :
    ∃ s', ReflTransGen TabMove s s' ∧ s'.threads = s.threads.set i .out ∧ s'.steMut = none ∧
      s'.steSlab.fp + 1 = s.steSlab.fp := by
  obtain ⟨sp, p, hget⟩ := h.get hne
  have hfull : doSlabEmpty s.steSlab = false := by simpa [doSlabEmpty] using hne
  obtain ⟨sl, m, threads, live⟩ := s
  simp only at hmut hi hget hfull
  subst hmut
  have hlock : TabStep ⟨sl, none, threads, live⟩ i ⟨sl, some i, threads.set i .getTest, live⟩ := by
    rcases hpc with rfl | rfl
    · exact .lock hi rfl
    · exact .relock hi rfl
  have htest : TabStep ⟨sl, some i, threads.set i .getTest, live⟩ i
      ⟨sl, some i, (threads.set i .getTest).set i .getSlab, live⟩ := by
    have hstep := TabStep.test (s := ⟨sl, some i, threads.set i .getTest, live⟩) (go_at .getTest hi)
    simpa only [hfull, SlabTabEntry.go, Bool.false_eq_true, ↓reduceIte] using hstep
  have hi' := go_at .getSlab (go_at .getTest hi)
  have htake := TabStep.get
    (s := ⟨sl, some i, (threads.set i .getTest).set i .getSlab, live⟩) hi' hget
  have hunlock := TabStep.unlock
    (s := ⟨sp, some i, ((threads.set i .getTest).set i .getSlab).set i (.getUnlock p), live⟩)
    (go_at (.getUnlock p) hi')
  refine ⟨_, (((ReflTransGen.single ⟨i, hlock⟩).tail ⟨i, htest⟩).tail ⟨i, htake⟩).tail
    ⟨i, hunlock⟩, ?_, rfl, (slab_get_moves hget).1⟩
  simp [SlabTabEntry.go]

/-- With nobody asleep, a putter puts and its signal is not heard. -/
theorem putter_through (h : TabSafe t s) (hnone : ∀ j : Nat, s.threads[j]? ≠ some Pc.getAsleep)
    (hi : s.threads[i]? = some pc) (hpc : pc.putting = true) :
    ∃ s', ReflTransGen TabMove s s' ∧ s'.threads = s.threads.set i .out ∧
      s.steSlab.fp ≤ s'.steSlab.fp := by
  cases pc with
  | putSignal => exact ⟨_, ReflTransGen.single ⟨i, .signalNone hi hnone⟩, rfl, Nat.le_refl _⟩
  | putSlab p =>
    obtain ⟨sp, hput⟩ := h.put hi
    have hnone' : ∀ j : Nat, (s.threads.set i .putSignal)[j]? ≠ some Pc.getAsleep := by
      intro j hj
      rcases go_get hj with ⟨-, hpc⟩ | ⟨-, hj⟩
      · cases hpc
      · exact hnone j hj
    have hsignal := TabStep.signalNone (s := { s.go i .putSignal with steSlab := sp })
      (go_at .putSignal hi) hnone'
    refine ⟨_, (ReflTransGen.single ⟨i, .put hi hput⟩).tail ⟨i, hsignal⟩, ?_, ?_⟩
    · simp [SlabTabEntry.go]
    · have hfp := (slab_put_moves hput).1
      simp only [SlabTabEntry.go_slab]
      omega
  | _ => cases hpc

theorem after_none (h : threads.countP q = 0) : threads.map (Pc.after q) = threads := by
  rw [List.countP_eq_zero] at h
  have hsame : threads.map (Pc.after q) = threads.map id := by
    apply List.map_congr_left
    intro pc hpc
    simp [Pc.after, h pc hpc]
  rw [hsame, List.map_id]

theorem after_set (hout : q .out = false) (hi : threads[i]? = some pc) (hpc : q pc = true) :
    (threads.set i .out).map (Pc.after q) = threads.map (Pc.after q) := by
  apply List.ext_getElem?
  intro j
  rw [List.getElem?_map, List.getElem?_map]
  by_cases he : j = i
  · rw [he, go_at .out hi, hi]
    simp [Pc.after, hout, hpc]
  · rw [List.getElem?_set_ne (Ne.symm he)]

/-- Where every thread that q picks can return while P is kept, all of them can. -/
theorem all_through {P : SlabTabEntry → Prop} (hout : q .out = false)
    (hone : ∀ (s : SlabTabEntry) (i : Nat) (pc : Pc), P s → s.threads[i]? = some pc →
      q pc = true →
      ∃ s', ReflTransGen TabMove s s' ∧ s'.threads = s.threads.set i .out ∧ P s') (hs : P s) :
    ∃ s', ReflTransGen TabMove s s' ∧ s'.threads = s.threads.map (Pc.after q) ∧ P s' := by
  induction hn : s.threads.countP q generalizing s with
  | zero => exact ⟨s, .refl, (after_none hn).symm, hs⟩
  | succ n ih =>
    have hpos : 0 < s.threads.countP q := by omega
    obtain ⟨pc, hmem, hpc⟩ := List.countP_pos_iff.mp hpos
    obtain ⟨i, hi⟩ := List.mem_iff_getElem?.mp hmem
    obtain ⟨s₁, hr₁, hthreads, hP⟩ := hone s i pc hs hi hpc
    have hcount := count_go (b := .out) (q := q) hi
    rw [hpc, hout, ← hthreads, hn] at hcount
    obtain ⟨s₂, hr₂, hmap, hP₂⟩ := ih hP (Nat.succ.inj hcount)
    refine ⟨s₂, hr₁.trans hr₂, ?_, hP₂⟩
    rw [hmap, hthreads]
    exact after_set hout hi hpc

theorem count_after {r : Pc → Bool} (hr : ∀ pc, r (pc.after q) = r pc) :
    (threads.map (Pc.after q)).countP r = threads.countP r := by
  rw [List.countP_map]
  exact List.countP_congr (fun pc _ => by simp [hr pc])

/-- While nobody sleeps, all calls of slab_tab_put can end unheard. -/
theorem putters_through (h : TabSafe t s)
    (hnone : ∀ j : Nat, s.threads[j]? ≠ some Pc.getAsleep) :
    ∃ s', ReflTransGen TabMove s s' ∧ s'.threads = s.threads.map (Pc.after Pc.putting) ∧
      s.steSlab.fp ≤ s'.steSlab.fp := by
  have hall := all_through (q := Pc.putting) (s := s)
    (P := fun s' => TabSafe t s' ∧ (∀ j : Nat, s'.threads[j]? ≠ some Pc.getAsleep) ∧
      s.steSlab.fp ≤ s'.steSlab.fp) rfl ?_ ⟨h, hnone, Nat.le_refl _⟩
  · obtain ⟨s', hr, hmap, -, -, hfp⟩ := hall
    exact ⟨s', hr, hmap, hfp⟩
  · intro s₁ i pc hP hi hpc
    obtain ⟨hsafe, hnone₁, hfp⟩ := hP
    obtain ⟨s₂, hr, hset, hle⟩ := putter_through hsafe hnone₁ hi hpc
    refine ⟨s₂, hr, hset, hsafe.moves hr, ?_, Nat.le_trans hfp hle⟩
    intro j hj
    rw [hset] at hj
    rcases go_get hj with ⟨-, hpc⟩ | ⟨-, hj⟩
    · cases hpc
    · exact hnone₁ j hj

/-- While more is free than there are getters awake, they can all get through. -/
theorem getters_through (h : TabSafe t s) (hmut : s.steMut = none)
    (hmore : s.threads.countP Pc.awake < s.steSlab.fp) :
    ∃ s', ReflTransGen TabMove s s' ∧ s'.threads = s.threads.map (Pc.after Pc.awake) ∧
      s'.steSlab.fp ≠ 0 := by
  have hall := all_through (q := Pc.awake) (s := s)
    (P := fun s' => TabSafe t s' ∧ s'.steMut = none ∧
      s'.threads.countP Pc.awake < s'.steSlab.fp) rfl ?_ ⟨h, hmut, hmore⟩
  · obtain ⟨s', hr, hmap, -, -, hfp⟩ := hall
    exact ⟨s', hr, hmap, by omega⟩
  · intro s₁ i pc hP hi hpc
    obtain ⟨hsafe, hmut₁, hfp⟩ := hP
    have hunlocked : pc.locked = false := by
      by_contra hlocked
      rw [Bool.not_eq_false] at hlocked
      have hown := hsafe.owner i pc hi hlocked
      rw [hmut₁] at hown
      cases hown
    have hwaits : pc = .getLock ∨ pc = .getWoken := by
      cases pc with
      | getLock => exact Or.inl rfl
      | getWoken => exact Or.inr rfl
      | getTest => cases hunlocked
      | getSlab => cases hunlocked
      | _ => cases hpc
    obtain ⟨s₂, hr, hset, hmut₂, hle⟩ := getter_through hsafe hmut₁ (by omega) hi hwaits
    refine ⟨s₂, hr, hset, hsafe.moves hr, hmut₂, ?_⟩
    have hcount := count_go (b := .out) (q := Pc.awake) hi
    rw [hpc, ← hset] at hcount
    simp only [Pc.awake, Bool.toNat_true, Bool.toNat_false] at hcount
    omega

/-- The thread that signals serves as well, so fewer are awake. -/
theorem awake_lt_serving (hi : threads[i]? = some Pc.putSignal) :
    threads.countP Pc.awake < threads.countP Pc.serving := by
  have hserving := count_go (b := .out) (q := Pc.serving) hi
  have hawake := count_go (b := .out) (q := Pc.awake) hi
  have hle : (threads.set i .out).countP Pc.awake ≤ (threads.set i .out).countP Pc.serving := by
    apply List.countP_mono_left
    intro pc _ hpc
    cases pc with
    | getLock | getTest | getWoken | getSlab => rfl
    | _ => cases hpc
  simp only [Pc.awake, Pc.serving, Bool.toNat_true, Bool.toNat_false] at hserving hawake
  omega

theorem after_out (hlocked : pc.locked = false) (hasleep : pc ≠ .getAsleep) :
    (pc.after Pc.putting).after Pc.awake = .out := by
  cases pc with
  | getAsleep => exact absurd rfl hasleep
  | getTest | getWait | getSlab | getUnlock p => cases hlocked
  | _ => rfl

/-- After a signal that is needed and not heard, the schedule that loses it: the
other putters end, the thread that found nothing sleeps, and the getters that
are awake take what they can. -/
theorem unheard_signal_lost {ok : SlabTabEntry → Nat → Prop} (h : TabRuns t ok s)
    (hunheard : ¬ SignalHeard s i) : ∃ s', ReflTransGen TabMove s s' ∧ LostWakeup s' := by
  have hsafe := tab_runs_safe h
  simp only [SignalHeard, Classical.not_imp, not_or, not_exists, not_forall, not_not,
    Nat.not_lt] at hunheard
  obtain ⟨hi, hnone, ⟨w, hw⟩, hserving⟩ := hunheard
  have hmut : s.steMut = some w := hsafe.owner w _ hw rfl
  obtain ⟨s₁, hr₁, hmap₁, hfp₁⟩ := putters_through hsafe hnone
  have hw₁ : s₁.threads[w]? = some Pc.getWait := by
    rw [hmap₁, List.getElem?_map, hw]
    rfl
  have hawake : s₁.threads.countP Pc.awake < s₁.steSlab.fp := by
    rw [hmap₁, count_after (fun pc => by cases pc <;> rfl)]
    have := awake_lt_serving hi
    omega
  have hasleep : (s₁.threads.set w .getAsleep).countP Pc.awake = s₁.threads.countP Pc.awake :=
    count_go (b := .getAsleep) (q := Pc.awake) hw₁
  have hr₂ := hr₁.tail ⟨w, .sleep hw₁⟩
  obtain ⟨s₃, hr₃, hmap₃, hfp₃⟩ :=
    getters_through (hsafe.moves hr₂) rfl (Nat.lt_of_le_of_lt (Nat.le_of_eq hasleep) hawake)
  have hget : ∀ j : Nat, s₃.threads[j]? =
      ((s₁.threads.set w .getAsleep)[j]?).map (Pc.after Pc.awake) := by
    intro j
    rw [hmap₃, List.getElem?_map]
    rfl
  refine ⟨s₃, hr₂.trans hr₃, by simpa [doSlabEmpty] using hfp₃, w, ?_, ?_⟩
  · rw [hget, go_at _ hw₁]
    rfl
  · intro j pc hne hj
    rw [hget, List.getElem?_set_ne (Ne.symm hne), hmap₁, List.getElem?_map, Option.map_map,
      Option.map_eq_some_iff] at hj
    obtain ⟨pc₀, hpc₀, rfl⟩ := hj
    -- only the thread that found nothing could have the mutex
    apply after_out
    · rw [← Bool.not_eq_true]
      intro hlocked
      have hown := hsafe.owner j pc₀ hpc₀ hlocked
      rw [hmut, Option.some.injEq] at hown
      exact hne hown.symm
    · intro he
      rw [he] at hpc₀
      exact hnone j hpc₀

end

end Mepl
