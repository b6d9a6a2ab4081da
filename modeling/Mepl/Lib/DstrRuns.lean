import Mathlib.Data.List.Induction
import Mathlib.Data.List.TakeWhile
import Mepl.Lib.Dstr

namespace Mepl

/-- The content after pushing bs one by one onto an empty dstr. -/
def stored (bs : List Byte) : List Cell :=
  if bs.length ≤ DSTR_SHORT_SIZE then bs.map some
  else carried ((bs.take DSTR_SHORT_SIZE).map some) ++ (bs.drop DSTR_SHORT_SIZE).map some

theorem stored_push (bs : List Byte) (c : Byte) : pushCell (stored bs) c = stored (bs ++ [c]) := by
  unfold pushCell stored
  rcases Nat.lt_trichotomy bs.length DSTR_SHORT_SIZE with h | h | h
  · have h1 : bs.length + 1 ≤ DSTR_SHORT_SIZE := h
    simp [Nat.le_of_lt h, Nat.ne_of_lt h, h1]
  · have h1 : ¬ bs.length + 1 ≤ DSTR_SHORT_SIZE := by omega
    rw [if_pos (Nat.le_of_eq h), if_pos (by simpa using h), if_neg (by simpa using h1)]
    rw [List.take_append_of_le_length (Nat.le_of_eq h.symm),
      List.take_of_length_le (Nat.le_of_eq h),
      List.drop_append_of_le_length (Nat.le_of_eq h.symm),
      List.drop_of_length_le (Nat.le_of_eq h)]
    rfl
  · have h1 : ¬ bs.length ≤ DSTR_SHORT_SIZE := by omega
    have h2 : ¬ bs.length + 1 ≤ DSTR_SHORT_SIZE := by omega
    have h3 : (carried ((bs.take DSTR_SHORT_SIZE).map some) ++
        (bs.drop DSTR_SHORT_SIZE).map some).length ≠ DSTR_SHORT_SIZE := by
      simp [carried_length]
      omega
    rw [if_neg h1, if_neg h3, if_neg (by simpa using h2)]
    simp [List.take_append_of_le_length (Nat.le_of_lt h),
      List.drop_append_of_le_length (Nat.le_of_lt h)]

theorem stored_length (bs : List Byte) : (stored bs).length = bs.length := by
  unfold stored
  split
  · simp
  · simp [carried_length]
    omega

/-- The contents that survive the switch to the heap: those that never make it,
and those whose inline part has no NUL before its last byte. -/
def NulSafe (bs : List Byte) : Prop :=
  bs.length ≤ DSTR_SHORT_SIZE ∨ 0#8 ∉ bs.take (DSTR_SHORT_SIZE - 1)

instance (bs : List Byte) : Decidable (NulSafe bs) := by
  unfold NulSafe
  infer_instance

theorem carried_map (bs : List Byte) :
    carried (bs.map some) = ((bs.takeWhile (· != 0#8)).map some ++
      some 0#8 :: List.replicate DSTR_SHORT_SIZE none).take DSTR_SHORT_SIZE := by
  simp [carried, List.takeWhile_map, Function.comp_def, bne]

/-- strcpy carries over a full inline array exactly when a NUL can only be its
last byte, which strcpy then copies as the terminator. -/
theorem carried_eq {bs : List Byte} (hb : bs.length = DSTR_SHORT_SIZE) :
    carried (bs.map some) = bs.map some ↔ 0#8 ∉ bs.take (DSTR_SHORT_SIZE - 1) := by
  have hs : DSTR_SHORT_SIZE = 31 := rfl
  rw [carried_map]
  constructor
  · -- a NUL before the last byte is followed by a byte that was never written
    intro he hm
    obtain ⟨a, b, hab, ha⟩ := List.eq_append_cons_of_mem hm
    have hlen : a.length + 1 ≤ 30 := by
      have := congrArg List.length hab
      simp [hb, hs] at this
      omega
    have hbs : bs = a ++ 0#8 :: (b ++ bs.drop (DSTR_SHORT_SIZE - 1)) := by
      conv => lhs; rw [← List.take_append_drop (DSTR_SHORT_SIZE - 1) bs, hab]
      simp
    have hw : bs.takeWhile (· != 0#8) = a := by
      rw [hbs, List.takeWhile_append_of_pos (by intro x hx; simp; rintro rfl; exact ha hx)]
      simp
    have hget := congrArg (fun l => l[a.length + 1]?) he
    have hlt : a.length + 1 < bs.length := by omega
    simp only [hw, List.getElem?_take, hs] at hget
    rw [if_pos (by omega), List.getElem?_append_right (by simp)] at hget
    simp [hlt] at hget
  · intro hn
    have hsplit : bs = bs.take (DSTR_SHORT_SIZE - 1) ++ bs.drop (DSTR_SHORT_SIZE - 1) :=
      (List.take_append_drop _ _).symm
    obtain ⟨x, hx⟩ : ∃ x, bs.drop (DSTR_SHORT_SIZE - 1) = [x] := by
      apply List.length_eq_one_iff.mp
      simp [hb, hs]
    generalize hi : bs.take (DSTR_SHORT_SIZE - 1) = init at hn hsplit
    rw [hx] at hsplit
    subst hsplit
    have hil : init.length = 30 := by simpa [hs] using hb
    rw [List.takeWhile_append_of_pos (by intro y hy; simp; rintro rfl; exact hn hy)]
    have ht : (init.map some).take 31 = init.map some :=
      List.take_of_length_le (by simp [hil])
    by_cases h0 : x = 0#8 <;> simp [h0, List.take_append, hil, hs, ht]

theorem stored_eq_iff (bs : List Byte) : stored bs = bs.map some ↔ NulSafe bs := by
  unfold stored NulSafe
  split
  · simp [*]
  · rename_i h
    have ht : (bs.take DSTR_SHORT_SIZE).length = DSTR_SHORT_SIZE := by simp; omega
    have hd : bs.map some = (bs.take DSTR_SHORT_SIZE).map some ++
        (bs.drop DSTR_SHORT_SIZE).map some := by
      rw [← List.map_append, List.take_append_drop]
    rw [hd, List.append_left_inj, carried_eq ht, List.take_take,
      Nat.min_eq_left (Nat.sub_le _ _)]
    simp only [h, false_or]

/-- Reading the content as a C string gives the characters before the first
NUL, whatever the switch to the heap lost after it. -/
theorem cstr_stored (bs : List Byte) (rest : List Cell) :
    cstr (stored bs ++ some 0#8 :: rest) = .ok (bs.takeWhile (· != 0#8)) := by
  unfold stored
  split
  · exact cstr_take bs rest
  · rename_i h
    let front := bs.take DSTR_SHORT_SIZE
    let back := bs.drop DSTR_SHORT_SIZE
    have hbs : bs = front ++ back := (List.take_append_drop _ _).symm
    have hfl : front.length = DSTR_SHORT_SIZE := by simp [front]; omega
    have hw := @List.takeWhile_append _ (· != 0#8) front back
    rw [← hbs] at hw
    by_cases hp : (front.takeWhile (· != 0#8)).length = front.length
    · -- no NUL before the switch: nothing was lost
      have hfr : front.takeWhile (· != 0#8) = front :=
        (List.takeWhile_prefix _).eq_of_length hp
      have hc : carried (front.map some) = front.map some := by
        rw [carried_map, hfr, List.take_append_of_le_length (by simp [hfl]),
          List.take_of_length_le (by simp [hfl])]
      rw [hc, ← List.map_append, ← hbs]
      exact cstr_take bs rest
    · -- the read stops at the NUL strcpy copied
      rw [if_neg hp] at hw
      have hlt : (front.takeWhile (· != 0#8)).length < DSTR_SHORT_SIZE := by
        have : (front.takeWhile (· != 0#8)).length ≤ front.length :=
          (List.takeWhile_sublist _).length_le
        omega
      obtain ⟨n, hn⟩ : ∃ n, DSTR_SHORT_SIZE = (front.takeWhile (· != 0#8)).length + (n + 1) :=
        ⟨DSTR_SHORT_SIZE - (front.takeWhile (· != 0#8)).length - 1, by omega⟩
      have hc : carried (front.map some) = (front.takeWhile (· != 0#8)).map some ++
          some 0#8 :: (List.replicate DSTR_SHORT_SIZE none).take n := by
        rw [carried_map, List.take_append, List.take_of_length_le (by simp; omega)]
        have : DSTR_SHORT_SIZE - ((front.takeWhile (· != 0#8)).map some).length = n + 1 := by
          simp
          omega
        rw [this, List.take_succ_cons]
      rw [hc, List.append_assoc, List.append_assoc, List.cons_append, cstr_take, hw,
        List.takeWhile_idem]

inductive DstrOp where
  | push (c : Int)
  | clear
  | move
deriving DecidableEq, Repr

/-- One call: the pointer it returns (NULL where it returns nothing), and the
dstr it leaves. -/
def DstrOp.run (d : Dstr) : DstrOp → Res (Option (List Cell) × Dstr)
  | .push c => do pure (none, ← dstrPush d c)
  | .clear => do pure (none, ← dstrClear d)
  | .move => dstrMove d

def runOps : Option (List Cell) × Dstr → List DstrOp → Res (Option (List Cell) × Dstr)
  | s, [] => .ok s
  | (_, d), op :: ops => do runOps (← op.run d) ops

/-- dstr_init, then the operations. -/
def dstrRun (ops : List DstrOp) : Res (Option (List Cell) × Dstr) :=
  runOps (none, dstrInit) ops

/-- The characters pushed since the last init, clear or move. -/
def pushed (ops : List DstrOp) : List Byte :=
  ops.foldl (fun text op => match op with
    | .push c => text ++ [intToChar c]
    | .clear => []
    | .move => []) []

/-- d is the string text: its length, its characters, its terminator. -/
def Faithful (text : List Byte) (d : Dstr) : Prop :=
  d.dLen = text.length ∧ ∃ a, d.cur = .ok a ∧
    a.take text.length = text.map some ∧ a[d.dLen]? = some (some 0#8)

/-- The pointer is to the nil-terminated string text. -/
def PointsTo (p : Option (List Cell)) (text : List Byte) : Prop :=
  ∃ a, p = some a ∧ a.take (text.length + 1) = text.map some ++ [some 0#8]

/-- After op, the last of the operations so far, the dstr is the pushed text,
and what dstr_move returned is the text pushed before it. -/
def FaithfulAfter (before : List DstrOp) (op : DstrOp) : Prop :=
  ∃ p d, dstrRun (before ++ [op]) = .ok (p, d) ∧ Faithful (pushed (before ++ [op])) d ∧
    (op = .move → PointsTo p (pushed before))

/-- dstr_move is only called when its check of d_cur holds. -/
def MovesChecked (ops : List DstrOp) : Prop :=
  ∀ before after, ops = before ++ .move :: after →
    ∀ p d, dstrRun before = .ok (p, d) → d.dCur ≠ .short

/-- No push that finds a full inline array finds a NUL before its last byte. -/
def SwitchesClean (ops : List DstrOp) : Prop :=
  ∀ before after c, ops = before ++ .push c :: after →
    (pushed before).length = DSTR_SHORT_SIZE →
    0#8 ∉ (pushed before).take (DSTR_SHORT_SIZE - 1)

theorem runOps_append (s : Option (List Cell) × Dstr) (ops ops' : List DstrOp) :
    runOps s (ops ++ ops') = (do runOps (← runOps s ops) ops') := by
  induction ops generalizing s with
  | nil => rfl
  | cons op ops ih =>
    obtain ⟨p, d⟩ := s
    cases h : op.run d with
    | error e => simp [runOps, h]
    | ok t => simp [runOps, h, ih]

theorem pushed_snoc (ops : List DstrOp) (op : DstrOp) :
    pushed (ops ++ [op]) = match op with
      | .push c => pushed ops ++ [intToChar c]
      | .clear => []
      | .move => [] := by
  cases op <;> simp [pushed]

theorem MovesChecked.prefix {ops ops' : List DstrOp} (h : MovesChecked (ops ++ ops')) :
    MovesChecked ops := by
  intro before after he
  exact h before (after ++ ops') (by simp [he])

theorem MovesChecked.of_not_mem {ops : List DstrOp} (h : .move ∉ ops) : MovesChecked ops := by
  intro before after he
  exact absurd (he ▸ List.mem_append_right _ List.mem_cons_self) h

/-- Every sequence runs to its end, and its content is what the switch to the
heap made of the pushed characters. -/
theorem run_stored (ops : List DstrOp) (hm : MovesChecked ops) :
    ∃ p d, dstrRun ops = .ok (p, d) ∧ Holds (stored (pushed ops)) d := by
  induction ops using List.reverseRecOn with
  | nil => exact ⟨none, dstrInit, rfl, holds_init⟩
  | append_singleton ops op ih =>
    obtain ⟨p, d, hr, hh⟩ := ih hm.prefix
    have hrun : dstrRun (ops ++ [op]) = op.run d := by
      unfold dstrRun at hr ⊢
      rw [runOps_append, hr]
      cases hop : op.run d with
      | error e => simp [runOps, hop]
      | ok t => simp [runOps, hop]
    rw [hrun, pushed_snoc]
    cases op with
    | push c =>
      obtain ⟨d', hp, hh'⟩ := hh.push c
      exact ⟨none, d', by simp [DstrOp.run, hp], by simpa [stored_push] using hh'⟩
    | clear => exact ⟨none, dstrInit, by simp [DstrOp.run, dstrClear, hh.ok], holds_init⟩
    | move =>
      have hs := hm ops [] rfl p d hr
      have hb : (d.dCur == .short) = false := beq_false_of_ne hs
      exact ⟨d.dHeap, dstrInit, by simp [DstrOp.run, dstrMove, hh.ok, hb], holds_init⟩

theorem Holds.faithful_iff {text : List Byte} (h : Holds (stored text) d) :
    Faithful text d ↔ NulSafe text := by
  have hl := h.dLen
  obtain ⟨rest, hc⟩ := h.cur
  rw [stored_length] at hl
  have ht : (stored text ++ some 0#8 :: rest).take text.length = stored text := by
    rw [← stored_length text, List.take_left']
    rfl
  have hz : (stored text ++ some 0#8 :: rest)[d.dLen]? = some (some 0#8) := by
    rw [hl, ← stored_length text]
    simp
  rw [← stored_eq_iff]
  constructor
  · intro hin
    obtain ⟨_, a, ha, hcells, _⟩ := hin
    rw [hc] at ha
    rw [← Except.ok.inj ha, ht] at hcells
    exact hcells
  · intro he
    exact ⟨hl, _, hc, by rw [ht, he], hz⟩

theorem SwitchesClean.prefix {ops ops' : List DstrOp} (h : SwitchesClean (ops ++ ops')) :
    SwitchesClean ops := by
  intro before after c he
  exact h before (after ++ ops') c (by simp [he])

/-- Once past the switch a content stays safe: later pushes leave its first
bytes alone. -/
theorem NulSafe.push {text : List Byte} (h : NulSafe text) (c : Byte)
    (hs : text.length = DSTR_SHORT_SIZE → 0#8 ∉ text.take (DSTR_SHORT_SIZE - 1)) :
    NulSafe (text ++ [c]) := by
  rcases Nat.lt_or_ge text.length DSTR_SHORT_SIZE with hl | hl
  · exact Or.inl (by simp; omega)
  · right
    rw [List.take_append_of_le_length (by omega)]
    rcases Nat.eq_or_lt_of_le hl with he | hl
    · exact hs he.symm
    · exact h.resolve_left (by omega)

theorem SwitchesClean.safe (ops : List DstrOp) (h : SwitchesClean ops) :
    NulSafe (pushed ops) := by
  induction ops using List.reverseRecOn with
  | nil => exact Or.inl (Nat.zero_le _)
  | append_singleton ops op ih =>
    rw [pushed_snoc]
    cases op with
    | push c => exact (ih h.prefix).push _ (h ops [] c rfl)
    | clear => exact Or.inl (Nat.zero_le _)
    | move => exact Or.inl (Nat.zero_le _)

theorem Holds.moved {text : List Byte} (h : Holds (stored text) d) (hc : d.dCur ≠ .short)
    (hs : NulSafe text) : PointsTo d.dHeap text := by
  rw [(stored_eq_iff text).mpr hs] at h
  generalize hcells : text.map some = cells at h
  cases h with
  | short => exact absurd rfl hc
  | @heap cells rest inline k long size =>
    refine ⟨_, rfl, ?_⟩
    have hl : text.length = cells.length := by rw [← hcells, List.length_map]
    rw [hl, hcells, List.take_append, List.take_of_length_le (Nat.le_succ _)]
    simp

/-- After each operation of a sequence the dstr is the string pushed so far,
and moved pointers hold theirs, exactly when no push that leaves the inline
array finds a NUL there before the last byte. -/
theorem dstr_faithful_iff (ops : List DstrOp) (hm : MovesChecked ops) :
    (∀ before op after, ops = before ++ op :: after → FaithfulAfter before op) ↔
      SwitchesClean ops := by
  constructor
  · intro hf before after c he hl
    obtain ⟨p, d, hr, hfaith, _⟩ := hf before (.push c) after he
    have hpre : MovesChecked (before ++ [.push c]) := by
      rw [he, List.append_cons] at hm
      exact hm.prefix
    obtain ⟨p', d', hr', hh⟩ := run_stored _ hpre
    rw [hr] at hr'
    obtain ⟨rfl, rfl⟩ := Prod.mk.inj (Except.ok.inj hr')
    have hsafe := hh.faithful_iff.mp hfaith
    simp only [pushed_snoc] at hsafe
    have ht := hsafe.resolve_left (by simp [hl])
    rwa [List.take_append_of_le_length (by omega)] at ht
  · intro hc before op after he
    have hpre : MovesChecked (before ++ [op]) := by
      rw [he, List.append_cons] at hm
      exact hm.prefix
    have hclean : SwitchesClean (before ++ [op]) := by
      rw [he, List.append_cons] at hc
      exact hc.prefix
    obtain ⟨p, d, hr, hh⟩ := run_stored _ hpre
    refine ⟨p, d, hr, hh.faithful_iff.mpr hclean.safe, ?_⟩
    intro hin
    subst hin
    obtain ⟨q, b, hrb, hhb⟩ := run_stored _ hpre.prefix
    have hs := hpre before [] rfl q b hrb
    have hb : (b.dCur == .short) = false := beq_false_of_ne hs
    have hrun : dstrRun (before ++ [.move]) = .ok (b.dHeap, dstrInit) := by
      unfold dstrRun at hrb ⊢
      simp [runOps_append, hrb, runOps, DstrOp.run, dstrMove, hhb.ok, hb]
    rw [hrun] at hr
    rw [← (Prod.mk.inj (Except.ok.inj hr)).1]
    exact hhb.moved hs hclean.prefix.safe

/-- A sequence may move once the content has outgrown the inline array. -/
theorem MovesChecked.move {ops : List DstrOp} (h : MovesChecked ops)
    (hl : DSTR_SHORT_SIZE < (pushed ops).length) : MovesChecked (ops ++ [.move]) := by
  intro before after he p d hr
  rcases List.eq_nil_or_concat after with rfl | ⟨after', op, rfl⟩
  · obtain ⟨rfl, _⟩ := List.append_inj' he rfl
    obtain ⟨p', d', hr', hh⟩ := run_stored _ h
    rw [hr] at hr'
    obtain ⟨rfl, rfl⟩ := Prod.mk.inj (Except.ok.inj hr')
    intro hs
    have := hh.short_iff.mp hs
    rw [stored_length] at this
    omega
  · have he' : ops = before ++ .move :: after' := by
      have : ops ++ [.move] = (before ++ .move :: after') ++ [op] := by simpa using he
      exact (List.append_inj' this rfl).1
    exact h before after' he' p d hr

theorem dstr_faithful_thirty_two :
    (∀ before op after, List.replicate 32 (.push 97) ++ [.move] = before ++ op :: after →
      FaithfulAfter before op) ↔ SwitchesClean (List.replicate 32 (.push 97) ++ [.move]) :=
  dstr_faithful_iff _ ((MovesChecked.of_not_mem (by decide)).move (by decide))

/-- A NUL first, and 31 more characters: the last push moves the string to the
heap, and strcpy carries none of the characters after the NUL there. -/
def nulThenFull : List DstrOp := .push 0 :: List.replicate 31 (.push 97)

theorem dstr_nul_lost : MovesChecked nulThenFull ∧
    ¬ ∀ before op after, nulThenFull = before ++ op :: after → FaithfulAfter before op := by
  have hm : MovesChecked nulThenFull := .of_not_mem (by decide)
  refine ⟨hm, fun hf => ?_⟩
  obtain ⟨p, d, hr, hfaith, _⟩ := hf (.push 0 :: List.replicate 30 (.push 97)) (.push 97) [] rfl
  obtain ⟨p', d', hr', hh⟩ := run_stored nulThenFull hm
  have he : .push 0 :: List.replicate 30 (.push 97) ++ [.push 97] = nulThenFull := rfl
  rw [he, hr'] at hr
  obtain ⟨rfl, rfl⟩ := Prod.mk.inj (Except.ok.inj hr)
  exact absurd (hh.faithful_iff.mp hfaith) (by decide)

end Mepl
