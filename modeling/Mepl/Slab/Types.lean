import Mathlib.Data.Fintype.Basic
import Mepl.C.Chars
import Mepl.Slab.Stack

namespace Mepl

abbrev SLAB_TAB_SIZE : Nat := 3

/-- A place in slab_tab. -/
abbrev SlabEntry := Fin SLAB_TAB_SIZE

/-- ste_name, in the order of tab.h -/
def steName (i : SlabEntry) : List Byte :=
  match i with
  | 0 => chars "AST_STR"
  | 1 => chars "AST_VAR_DEF"
  | 2 => chars "AST_IF"

/-- slab_init, and what ste_slab points to. -/
structure SlabTab where
  slabInit : Bool
  slabs : SlabEntry → SlabStack

/-- A write through ste_slab of the entry i. -/
def SlabTab.setSlab (s : SlabTab) (i : SlabEntry) (sp : SlabStack) : SlabTab :=
  { s with slabs := Function.update s.slabs i sp }

section
variable (s : SlabTab) (i : SlabEntry) (sp : SlabStack)

@[simp] theorem SlabTab.set_slab_init : (s.setSlab i sp).slabInit = s.slabInit := rfl

@[simp] theorem SlabTab.set_slab_self : (s.setSlab i sp).slabs i = sp := by
  simp [SlabTab.setSlab]

theorem SlabTab.set_slab_other {j : SlabEntry} (h : j ≠ i) :
    (s.setSlab i sp).slabs j = s.slabs j := by
  simp [SlabTab.setSlab, h]

end

/-- dbug() of slab/lib.h, which is empty without -DDBUG. -/
def dbugIn (DBUG cond : Bool) (fmt : String) : Res Unit :=
  if DBUG then dbug cond fmt else pure ()

/-- No entry of tab.h has a NULL slab. -/
def slabTabFind (DBUG : Bool) (type : List Byte) : Res SlabEntry := do
  dbugIn DBUG (type == []) "slab_tab_find(): *type == '\x00'"
  let i : SlabEntry := ⟨(strhash type).toNat % SLAB_TAB_SIZE, Nat.mod_lt _ (by decide)⟩
  dbugIn DBUG (steName i != type) "slab_tab_find(): no slab named: %s"
  pure i

/-- init_check, which is empty without -DDBUG. -/
def initCheck (DBUG : Bool) (s : SlabTab) : Res Unit :=
  if DBUG && !s.slabInit then throw (.die "slab_tab not initialized") else pure ()

/-- ptr_mine, which is empty without -DDBUG. -/
def ptrMine (DBUG : Bool) (t : SlabType) (p : Nat) : Res Unit :=
  if DBUG && !doSlabMine t p then throw (.die "%p does not belong to %s") else pure ()

section
variable (t : SlabEntry → SlabType) (DBUG : Bool)

def initEntry (s : SlabTab) (i : SlabEntry) : Res SlabTab := do
  let sp ← doSlabInit (t i) (s.slabs i)
  pure (s.setSlab i sp)

def slabTabInit (s : SlabTab) : Res SlabTab := do
  let s ← (List.finRange SLAB_TAB_SIZE).foldlM (initEntry t) s
  pure { s with slabInit := true }

/-- none is a wait for another thread. -/
def slabTabGet (s : SlabTab) (type : List Byte) : Res (Option (SlabTab × Nat)) := do
  let i ← slabTabFind DBUG type
  initCheck DBUG s
  if doSlabEmpty (s.slabs i) then pure none
  else do
    let (sp, p) ← doSlabGet (s.slabs i)
    pure (some (s.setSlab i sp, p))

def slabTabPut (s : SlabTab) (type : List Byte) (p : Nat) : Res SlabTab := do
  let i ← slabTabFind DBUG type
  initCheck DBUG s
  ptrMine DBUG (t i) p
  let sp ← doSlabPut (s.slabs i) p
  pure (s.setSlab i sp)

/-- The entries that slab_tab_exit_check warns of; full_check is empty without
-DDBUG. -/
def slabTabExitCheck (s : SlabTab) : List SlabEntry :=
  (List.finRange SLAB_TAB_SIZE).filter (fun i => DBUG && !doSlabFull (t i) (s.slabs i))

/-- The states of all runs of one thread, with the pointers it holds and the
types it asked for. It puts what it holds. With -DDBUG it may use any names;
without, nothing checks them, and it uses those of tab.h and puts a pointer
under the name it got it with. -/
inductive SlabTabRuns : SlabTab → List (List Byte × Nat) → Prop
  | init {s s' : SlabTab} (arrays : ∀ i, (s.slabs i).free.length = (t i).SIZE)
      (call : slabTabInit t s = .ok s') : SlabTabRuns s' []
  | get {s s' : SlabTab} {held : List (List Byte × Nat)} {type : List Byte} {p : Nat}
      (run : SlabTabRuns s held) (checked : DBUG = true ∨ ∃ i, type = steName i)
      (call : slabTabGet DBUG s type = .ok (some (s', p))) :
      SlabTabRuns s' ((type, p) :: held)
  | put {s s' : SlabTab} {held : List (List Byte × Nat)} {type type' : List Byte} {p : Nat}
      (run : SlabTabRuns s held) (owned : (type, p) ∈ held)
      (checked : DBUG = true ∨ type' = type) (call : slabTabPut t DBUG s type' p = .ok s') :
      SlabTabRuns s' (held.erase (type, p))

end

/-- The pointers held as ones of the entry i. -/
def heldOf (i : SlabEntry) (held : List (List Byte × Nat)) : List Nat :=
  held.filterMap (fun x => if x.1 = steName i then some x.2 else none)

/-- The pools are different objects. -/
def PoolsApart (t : SlabEntry → SlabType) : Prop :=
  ∀ i j p, doSlabMine (t i) p = true → doSlabMine (t j) p = true → i = j

/-- Every slab has its own elements free or held under its name. -/
structure SlabTabOk (t : SlabEntry → SlabType) (s : SlabTab) (held : List (List Byte × Nat)) :
    Prop where
  inited : s.slabInit = true
  slabs : ∀ i, SlabConserved (t i) (s.slabs i) (heldOf i held)
  named : ∀ x ∈ held, ∃ i, x.1 = steName i

section
variable {t : SlabEntry → SlabType} {s s' : SlabTab} {held held' : List (List Byte × Nat)}
  {type type' : List Byte} {p : Nat} {i j : SlabEntry} {DBUG : Bool}

theorem SlabConserved.own {t : SlabType} {sp : SlabStack} {live : List Nat}
    (h : SlabConserved t sp live) (hp : p ∈ live) : doSlabMine t p = true :=
  slab_elems_mine (h.pool.subset (List.mem_append_right _ hp))

theorem ste_name_inj (h : steName i = steName j) : i = j := by
  revert i j
  decide

/-- Every name is in the slot of its hash. -/
theorem slab_tab_find_name (DBUG : Bool) (i : SlabEntry) :
    slabTabFind DBUG (steName i) = .ok i := by
  revert DBUG i
  decide

/-- With -DDBUG, only the names of tab.h are found. -/
theorem slab_tab_find_stop (hname : ∀ i, type ≠ steName i) :
    ∃ fmt, slabTabFind true type = .error (.dbug fmt) := by
  simp only [slabTabFind, dbugIn, if_true]
  by_cases hempty : type = []
  · exact ⟨_, by rw [dbug, if_pos (by simpa using hempty)]; rfl⟩
  · rw [dbug, if_neg (by simpa using hempty), ok_bind, dbug,
      if_pos (by simpa using (hname _).symm)]
    exact ⟨_, rfl⟩

theorem slab_tab_find_ok (hchecked : DBUG = true ∨ ∃ j, type = steName j)
    (h : slabTabFind DBUG type = .ok i) : type = steName i := by
  by_cases hname : ∃ j, type = steName j
  · obtain ⟨j, rfl⟩ := hname
    rw [slab_tab_find_name] at h
    cases h
    rfl
  · obtain rfl := hchecked.resolve_right hname
    obtain ⟨fmt, hstop⟩ := slab_tab_find_stop (fun j hj => hname ⟨j, hj⟩)
    rw [hstop] at h
    cases h

theorem heldOf_cons (x : List Byte × Nat) (held : List (List Byte × Nat)) :
    heldOf i (x :: held) = if x.1 = steName i then x.2 :: heldOf i held else heldOf i held := by
  unfold heldOf
  rw [List.filterMap_cons]
  split <;> simp_all

theorem mem_heldOf : p ∈ heldOf i held ↔ (steName i, p) ∈ held := by
  simp only [heldOf, List.mem_filterMap]
  constructor
  · rintro ⟨x, hx, hp⟩
    split at hp
    · rename_i hname
      cases hp
      rwa [← hname]
    · cases hp
  · intro hin
    exact ⟨_, hin, by simp⟩

theorem heldOf_perm (h : held.Perm held') : (heldOf i held).Perm (heldOf i held') :=
  h.filterMap _

/-- The slab i with its pointers, and the others as they were. -/
theorem SlabTabOk.update (h : SlabTabOk t s held) {sp : SlabStack}
    (hsp : SlabConserved (t i) sp (heldOf i held'))
    (hothers : ∀ j, j ≠ i → (heldOf j held).Perm (heldOf j held'))
    (hnamed : ∀ x ∈ held', ∃ i, x.1 = steName i) : SlabTabOk t (s.setSlab i sp) held' where
  inited := h.inited
  slabs := by
    intro j
    by_cases hj : j = i
    · subst hj
      rw [SlabTab.set_slab_self]
      exact hsp
    · rw [SlabTab.set_slab_other s i sp hj]
      exact (h.slabs j).perm (hothers j hj)
  named := hnamed

/-- One round after another; each writes its own slab. -/
theorem init_entries {l : List SlabEntry} (hnodup : l.Nodup)
    (harrays : ∀ i ∈ l, (s.slabs i).free.length = (t i).SIZE) :
    ∃ s', l.foldlM (initEntry t) s = .ok s' ∧ (∀ i ∈ l, SlabConserved (t i) (s'.slabs i) []) ∧
      ∀ i, i ∉ l → s'.slabs i = s.slabs i := by
  induction l generalizing s with
  | nil => exact ⟨s, rfl, by simp, fun _ _ => rfl⟩
  | cons j l ih =>
    obtain ⟨hj, hl⟩ := List.nodup_cons.mp hnodup
    obtain ⟨sp, hinit, hsp⟩ := slab_init_conserved (harrays j List.mem_cons_self)
    have hother : ∀ i, i ≠ j → (s.setSlab j sp).slabs i = s.slabs i :=
      fun i hi => SlabTab.set_slab_other s j sp hi
    obtain ⟨s', hrun, hin, hout⟩ := @ih (s.setSlab j sp) hl (fun i hi => by
      rw [hother i (fun he => hj (he ▸ hi))]
      exact harrays i (List.mem_cons_of_mem j hi))
    refine ⟨s', ?_, ?_, ?_⟩
    · rw [List.foldlM_cons, initEntry, hinit]
      exact hrun
    · intro i hi
      rcases List.mem_cons.mp hi with rfl | hi
      · rw [hout i hj, SlabTab.set_slab_self]
        exact hsp
      · exact hin i hi
    · intro i hi
      rw [List.mem_cons, not_or] at hi
      rw [hout i hi.2, hother i hi.1]

theorem slab_tab_init_ok (harrays : ∀ i, (s.slabs i).free.length = (t i).SIZE) :
    ∃ s', slabTabInit t s = .ok s' ∧ SlabTabOk t s' [] := by
  obtain ⟨s', hrun, hin, -⟩ :=
    init_entries (List.nodup_finRange SLAB_TAB_SIZE) (fun i _ => harrays i)
  refine ⟨{ s' with slabInit := true }, ?_, rfl, ?_, ?_⟩
  · rw [slabTabInit, hrun]
    rfl
  · exact fun i => hin i (List.mem_finRange i)
  · simp

theorem SlabTabOk.get (DBUG : Bool) (h : SlabTabOk t s held)
    (havail : doSlabEmpty (s.slabs i) = false) :
    ∃ s' p, slabTabGet DBUG s (steName i) = .ok (some (s', p)) ∧ p ∈ (t i).elems ∧
      p ∉ heldOf i held ∧ SlabTabOk t s' ((steName i, p) :: held) := by
  obtain ⟨sp, p, hget, hsp⟩ := (h.slabs i).get havail
  have hfresh := (List.nodup_append.mp hsp.nodup).2.1
  refine ⟨s.setSlab i sp, p, ?_, ?_, (List.nodup_cons.mp hfresh).1, h.update ?_ ?_ ?_⟩
  · simp [slabTabGet, slab_tab_find_name, initCheck, h.inited, havail, hget]
  · exact hsp.pool.subset (by simp)
  · rwa [heldOf_cons, if_pos rfl]
  · intro j hj
    rw [heldOf_cons, if_neg (fun he => hj (ste_name_inj he).symm)]
  · intro x hx
    rcases List.mem_cons.mp hx with rfl | hx
    · exact ⟨i, rfl⟩
    · exact h.named x hx

theorem SlabTabOk.put (DBUG : Bool) (h : SlabTabOk t s held) (hp : (steName i, p) ∈ held) :
    ∃ s', slabTabPut t DBUG s (steName i) p = .ok s' ∧
      SlabTabOk t s' (held.erase (steName i, p)) := by
  have hin := mem_heldOf.mpr hp
  obtain ⟨sp, hput, hsp⟩ := (h.slabs i).put hin
  have hperm := List.perm_cons_erase hp
  refine ⟨s.setSlab i sp, ?_, h.update (hsp.perm ?_) ?_ ?_⟩
  · simp [slabTabPut, slab_tab_find_name, initCheck, h.inited, ptrMine, (h.slabs i).own hin, hput]
  · have hall := heldOf_perm (i := i) hperm
    rw [heldOf_cons, if_pos rfl] at hall
    simpa using hall.erase p
  · intro j hj
    have hall := heldOf_perm (i := j) hperm
    rwa [heldOf_cons, if_neg (fun he => hj (ste_name_inj he).symm)] at hall
  · exact fun x hx => h.named x (List.mem_of_mem_erase hx)

/-- With -DDBUG, a put under another name ends the program. -/
theorem SlabTabOk.put_stop (h : SlabTabOk t s held) (hapart : PoolsApart t)
    (hp : (type, p) ∈ held) (hne : type' ≠ type) :
    ∃ fmt, slabTabPut t true s type' p = .error (.die fmt) ∨
      slabTabPut t true s type' p = .error (.dbug fmt) := by
  obtain ⟨i, hi⟩ := h.named _ hp
  simp only at hi
  subst hi
  by_cases hname : ∃ j, type' = steName j
  · obtain ⟨j, rfl⟩ := hname
    have hother : doSlabMine (t j) p = false := by
      by_contra hmine
      have hji := hapart j i p (by simpa using hmine) ((h.slabs i).own (mem_heldOf.mpr hp))
      exact hne (congrArg steName hji)
    refine ⟨"%p does not belong to %s", .inl ?_⟩
    simp only [slabTabPut, slab_tab_find_name, initCheck, h.inited, ptrMine, hother, ok_bind,
      Bool.not_true, Bool.and_false, Bool.false_eq_true, ↓reduceIte, pure_ok, Bool.not_false,
      Bool.and_self]
    rfl
  · obtain ⟨fmt, hstop⟩ := slab_tab_find_stop (fun j hj => hname ⟨j, hj⟩)
    exact ⟨fmt, .inr (by rw [slabTabPut, hstop, error_bind])⟩

theorem SlabTabOk.put_named (h : SlabTabOk t s held) (hapart : PoolsApart t)
    (hp : (type, p) ∈ held) (hchecked : DBUG = true ∨ type' = type)
    (hput : slabTabPut t DBUG s type' p = .ok s') : type' = type := by
  by_contra hne
  obtain rfl := hchecked.resolve_right hne
  obtain ⟨fmt, hstop | hstop⟩ := h.put_stop hapart hp hne
  all_goals
    rw [hstop] at hput
    cases hput

theorem SlabTabOk.wait_iff (h : SlabTabOk t s held) :
    slabTabGet DBUG s (steName i) = .ok none ↔ (heldOf i held).Perm (t i).elems := by
  rw [← (h.slabs i).empty_iff]
  cases hempty : doSlabEmpty (s.slabs i) with
  | true => simp [slabTabGet, slab_tab_find_name, initCheck, h.inited, hempty]
  | false =>
    obtain ⟨s', p, hget, -⟩ := h.get DBUG hempty
    simp [hget]

theorem slab_tab_runs_ok (hapart : PoolsApart t) (h : SlabTabRuns t DBUG s held) :
    SlabTabOk t s held := by
  induction h with
  | init arrays call =>
    obtain ⟨s₁, hinit, hok⟩ := slab_tab_init_ok arrays
    rw [hinit] at call
    cases call
    exact hok
  | @get s s' held type p run checked call ih =>
    have hfind := call
    rw [slabTabGet, bind_ok] at hfind
    obtain ⟨i, hfind, -⟩ := hfind
    have htype := slab_tab_find_ok checked hfind
    subst htype
    cases hempty : doSlabEmpty (s.slabs i) with
    | true => simp [slabTabGet, hfind, initCheck, ih.inited, hempty] at call
    | false =>
      obtain ⟨s₁, p₁, hget, -, -, hok⟩ := ih.get DBUG hempty
      rw [hget] at call
      cases call
      exact hok
  | @put s s' held type type' p run owned checked call ih =>
    have hname := ih.put_named hapart owned checked call
    obtain ⟨i, hi⟩ := ih.named _ owned
    simp only at hi
    subst hname hi
    obtain ⟨s₁, hput, hok⟩ := ih.put DBUG owned
    rw [hput] at call
    cases call
    exact hok

/-- Two holders of one pointer would have it of one slab, which gives it once. -/
theorem held_nodup (hapart : PoolsApart t) (hnamed : ∀ x ∈ held, ∃ i, x.1 = steName i)
    (hown : ∀ i, ∀ p ∈ heldOf i held, doSlabMine (t i) p = true)
    (hnodup : ∀ i, (heldOf i held).Nodup) : (held.map Prod.snd).Nodup := by
  induction held with
  | nil => exact List.nodup_nil
  | cons x held ih =>
    obtain ⟨i, hi⟩ := hnamed x List.mem_cons_self
    have hmore : ∀ j, ∀ p ∈ heldOf j held, p ∈ heldOf j (x :: held) :=
      fun j p hp => mem_heldOf.mpr (List.mem_cons_of_mem x (mem_heldOf.mp hp))
    have hx : x.2 ∈ heldOf i (x :: held) := mem_heldOf.mpr (by simp [← hi])
    rw [List.map_cons, List.nodup_cons]
    constructor
    · intro hin
      obtain ⟨y, hy, hyp⟩ := List.mem_map.mp hin
      obtain ⟨j, hj⟩ := hnamed y (List.mem_cons_of_mem x hy)
      have hin' : x.2 ∈ heldOf j held := mem_heldOf.mpr (by rwa [← hj, ← hyp])
      have hji := hapart j i x.2 (hown j _ (hmore j _ hin')) (hown i _ hx)
      subst hji
      have hcons := hnodup j
      rw [heldOf_cons, if_pos hi] at hcons
      exact (List.nodup_cons.mp hcons).1 hin'
    · refine ih (fun y hy => hnamed y (List.mem_cons_of_mem x hy))
        (fun j p hp => hown j p (hmore j p hp)) (fun j => ?_)
      have hcons := hnodup j
      rw [heldOf_cons] at hcons
      split at hcons
      · exact (List.nodup_cons.mp hcons).2
      · exact hcons

theorem slab_tab_exit_check_iff (DBUG : Bool) (h : SlabTabOk t s held) :
    i ∈ slabTabExitCheck t DBUG s ↔ DBUG = true ∧ ∃ p, (steName i, p) ∈ held := by
  rw [slabTabExitCheck, List.mem_filter, Bool.and_eq_true, Bool.not_eq_true',
    ← Bool.not_eq_true, (h.slabs i).full_iff]
  simp only [List.mem_finRange, true_and, List.eq_nil_iff_forall_not_mem, mem_heldOf]
  push Not
  rfl

/-- What holds of slab_tab in every state of every run, with the pointers held. -/
structure SlabTabSound (t : SlabEntry → SlabType) (DBUG : Bool) (s : SlabTab)
    (held : List (List Byte × Nat)) : Prop where
  /-- no pointer is given out twice, whatever the names -/
  nodup : (held.map Prod.snd).Nodup
  /-- get waits only while all elements of the name are out -/
  waits : ∀ i, slabTabGet DBUG s (steName i) = .ok none ↔ (heldOf i held).Perm (t i).elems
  /-- and gives another element of the name else -/
  gets : ∀ i, slabTabGet DBUG s (steName i) = .ok none ∨
    ∃ s' p, slabTabGet DBUG s (steName i) = .ok (some (s', p)) ∧ p ∈ (t i).elems ∧
      p ∉ held.map Prod.snd
  /-- put returns under the name of the get -/
  puts : ∀ type p, (type, p) ∈ held → ∃ s', slabTabPut t DBUG s type p = .ok s'
  /-- with -DDBUG, a get of another name than those of tab.h ends the program -/
  unknown : DBUG = true → ∀ type, (∀ i, type ≠ steName i) →
    ∃ fmt, slabTabGet DBUG s type = .error (.dbug fmt)
  /-- and so does a put under another name than that of the get -/
  stops : DBUG = true → ∀ type p, (type, p) ∈ held → ∀ type', type' ≠ type →
    ∃ fmt, slabTabPut t DBUG s type' p = .error (.die fmt) ∨
      slabTabPut t DBUG s type' p = .error (.dbug fmt)
  /-- full_check warns of the names something is held of, and only with -DDBUG -/
  leaks : ∀ i, i ∈ slabTabExitCheck t DBUG s ↔ DBUG = true ∧ ∃ p, (steName i, p) ∈ held

/-- The slabs of the table stay apart over the runs of a thread, in both builds. -/
theorem slab_tab_runs_apart (hapart : PoolsApart t) (h : SlabTabRuns t DBUG s held) :
    SlabTabSound t DBUG s held := by
  have hok := slab_tab_runs_ok hapart h
  have hnodup : ∀ {s : SlabTab} {held : List (List Byte × Nat)}, SlabTabOk t s held →
      (held.map Prod.snd).Nodup := fun hok =>
    held_nodup hapart hok.named (fun i _ hp => (hok.slabs i).own hp)
      (fun i => (List.nodup_append.mp (hok.slabs i).nodup).2.1)
  constructor
  case nodup => exact hnodup hok
  case waits => exact fun i => hok.wait_iff
  case gets =>
    intro i
    cases hempty : doSlabEmpty (s.slabs i) with
    | true => exact .inl (hok.wait_iff.mpr ((hok.slabs i).empty_iff.mp hempty))
    | false =>
      obtain ⟨s', p, hget, hp, -, hok'⟩ := hok.get DBUG hempty
      exact .inr ⟨s', p, hget, hp, (List.nodup_cons.mp (hnodup hok')).1⟩
  case puts =>
    intro type p hp
    obtain ⟨i, hi⟩ := hok.named _ hp
    simp only at hi
    subst hi
    obtain ⟨s', hput, -⟩ := hok.put DBUG hp
    exact ⟨s', hput⟩
  case unknown =>
    rintro rfl type hname
    obtain ⟨fmt, hstop⟩ := slab_tab_find_stop hname
    exact ⟨fmt, by rw [slabTabGet, hstop, error_bind]⟩
  case stops =>
    rintro rfl type p hp type' hne
    exact hok.put_stop hapart hp hne
  case leaks => exact fun i => slab_tab_exit_check_iff DBUG hok

end

def slabPools (i : SlabEntry) : SlabType :=
  match i with
  | 0 => ⟨2, 48, 0x1000, Nat.succ_pos 47⟩
  | 1 => ⟨2, 48, 0x1060, Nat.succ_pos 47⟩
  | 2 => ⟨2, 48, 0x10c0, Nat.succ_pos 47⟩

theorem slab_pools_at (i : SlabEntry) :
    (slabPools i).SIZE = 2 ∧ (slabPools i).sizeofT = 48 ∧
      (slabPools i).pool = 0x1000 + 96 * i.val := by
  revert i
  decide

theorem slab_pools_apart : PoolsApart slabPools := by
  intro i j p hi hj
  obtain ⟨hsize, hsizeof, hpool⟩ := slab_pools_at i
  obtain ⟨hsize', hsizeof', hpool'⟩ := slab_pools_at j
  simp only [doSlabMine, Bool.and_eq_true, decide_eq_true_eq, hsize, hsizeof, hpool] at hi
  simp only [doSlabMine, Bool.and_eq_true, decide_eq_true_eq, hsize', hsizeof', hpool'] at hj
  exact Fin.ext (by omega)

/-- Two gets of different names, and a put of what the first one gave. -/
theorem slab_tab_runs_apart_two :
    ∃ s q, SlabTabSound slabPools true s [(steName 2, q)] := by
  let s₀ : SlabTab := ⟨false, fun _ => ⟨[0, 0], 0⟩⟩
  have harrays : ∀ i, (s₀.slabs i).free.length = (slabPools i).SIZE :=
    fun i => (slab_pools_at i).1.symm
  obtain ⟨s, hinit, hok⟩ := slab_tab_init_ok harrays
  have hempty : ∀ {s : SlabTab} {held : List (List Byte × Nat)} (i : SlabEntry),
      SlabTabOk slabPools s held → (heldOf i held) = [] → doSlabEmpty (s.slabs i) = false := by
    intro s held i hok hnone
    have hcount := (hok.slabs i).count
    rw [hnone] at hcount
    rw [(slab_pools_at i).1, List.length_nil] at hcount
    rw [doSlabEmpty, beq_eq_false_iff_ne]
    omega
  obtain ⟨s₁, p, hget, -, -, hok₁⟩ := hok.get true (hempty 0 hok rfl)
  obtain ⟨s₂, q, hget₂, -, -, hok₂⟩ :=
    hok₁.get true (hempty 2 hok₁ (by simp [heldOf, steName, chars]))
  have hin : (steName 0, p) ∈ [(steName 2, q), (steName 0, p)] := by simp
  obtain ⟨s₃, hput, -⟩ := hok₂.put true hin
  have hrun := (((SlabTabRuns.init harrays hinit).get (.inl rfl) hget).get (.inl rfl) hget₂).put
    hin (.inl rfl) hput
  have hne : (steName 2, q) ≠ (steName 0, p) := by
    intro he
    have hname : (2 : SlabEntry) = 0 := ste_name_inj (congrArg Prod.fst he)
    cases hname
  rw [List.erase_cons_tail (by simpa using hne), List.erase_cons_head] at hrun
  exact ⟨s₃, q, slab_tab_runs_apart slab_pools_apart hrun⟩

end Mepl
