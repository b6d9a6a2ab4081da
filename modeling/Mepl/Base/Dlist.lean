import Mathlib.Data.List.Nodup
import Mathlib.Logic.Function.Basic

namespace Mepl.Base

variable {A : Type}

/-- Circular lists: every cell names the next one and the one before. -/
structure Links (A : Type) where
  next : A → A
  prev : A → A

namespace Links

section
variable [DecidableEq A]

def setNext (l : Links A) (a b : A) : Links A := { l with next := Function.update l.next a b }

def setPrev (l : Links A) (a b : A) : Links A := { l with prev := Function.update l.prev a b }

theorem set_next_self (l : Links A) (a : A) : l.setNext a (l.next a) = l := by
  rw [setNext, Function.update_eq_self]

theorem set_prev_self (l : Links A) (a : A) : l.setPrev a (l.prev a) = l := by
  rw [setPrev, Function.update_eq_self]

/-- p alone, the head of an empty list. -/
def init (l : Links A) (p : A) : Links A := (l.setNext p p).setPrev p p

/-- p taken out: its neighbours name each other, p still names both. -/
def rm (l : Links A) (p : A) : Links A :=
  let next := l.next p
  let prev := l.prev p
  (l.setPrev next prev).setNext prev next

/-- p put in behind before. -/
def addAfter (l : Links A) (before p : A) : Links A :=
  let next := l.next before
  (((l.setNext p next).setPrev p before).setNext before p).setPrev next p

/-- The first cell from p on that passes the test, or the head; fuel when the
steps run out. -/
def search (l : Links A) (head : A) (test : A → Except E Bool) (fuel : E) : Nat → A → Except E A
  | 0, _ => .error fuel
  | n + 1, p =>
    if p = head then pure p
    else do
      let found ← test p
      if found then pure p else l.search head test fuel n (l.next p)

/-- The cells that the search tests on its way. -/
def searched (l : Links A) (head : A) (test : A → Except E Bool) (fuel : E) :
    Nat → A → Except E (List A)
  | 0, _ => .error fuel
  | n + 1, p =>
    if p = head then pure []
    else do
      let found ← test p
      if found then pure [p]
      else do
        let rest ← l.searched head test fuel n (l.next p)
        pure (p :: rest)

end

/-- From a on, the cells xs and then b, and the same way back. -/
def Path (l : Links A) : A → List A → A → Prop
  | a, [], b => l.next a = b ∧ l.prev b = a
  | a, x :: xs, b => l.next a = x ∧ l.prev x = a ∧ l.Path x xs b

/-- The list with this head holds the cells xs. -/
structure Ring (l : Links A) (head : A) (xs : List A) : Prop where
  path : l.Path head xs head
  nodup : (head :: xs).Nodup

variable {l l' : Links A} {a b p head : A} {xs ys zs : List A}

theorem path_append : l.Path a (ys ++ p :: zs) b ↔ l.Path a ys p ∧ l.Path p zs b := by
  induction ys generalizing a with
  | nil => simp [Path, and_assoc]
  | cons y ys ih => simp [Path, ih, and_assoc]

theorem Path.congr (h : l.Path a xs b) (hnext : ∀ x ∈ a :: xs, l'.next x = l.next x)
    (hprev : ∀ x ∈ xs ++ [b], l'.prev x = l.prev x) : l'.Path a xs b := by
  induction xs generalizing a with
  | nil =>
    have ha := hnext a List.mem_cons_self
    have hb := hprev b (List.mem_singleton_self b)
    exact ⟨ha.trans h.1, hb.trans h.2⟩
  | cons x xs ih =>
    obtain ⟨hx, hax, hrest⟩ := h
    exact ⟨(hnext a List.mem_cons_self).trans hx, (hprev x List.mem_cons_self).trans hax,
      ih hrest (fun y hy => hnext y (List.mem_cons_of_mem _ hy))
        (fun y hy => hprev y (List.mem_cons_of_mem _ hy))⟩

theorem Path.prev_mem (h : l.Path a xs b) : l.prev b ∈ a :: xs := by
  induction xs generalizing a with
  | nil =>
    rw [h.2]
    exact List.mem_cons_self
  | cons x xs ih => exact List.mem_cons_of_mem _ (ih h.2.2)

theorem Path.prev_last (h : l.Path a xs b) :
    l.prev b = (a :: xs).getLast (List.cons_ne_nil a xs) := by
  induction xs generalizing a with
  | nil => exact h.2
  | cons x xs ih =>
    rw [List.getLast_cons (List.cons_ne_nil x xs)]
    exact ih h.2.2

theorem Path.next_prev (h : l.Path a xs b) : l.next (l.prev b) = b := by
  induction xs generalizing a with
  | nil =>
    rw [h.2]
    exact h.1
  | cons x xs ih => exact ih h.2.2

theorem Path.next_mem (h : l.Path a xs b) : l.next a ∈ xs ++ [b] := by
  cases xs with
  | nil =>
    rw [h.1]
    exact List.mem_singleton_self b
  | cons x xs =>
    rw [h.1]
    exact List.mem_cons_self

/-- A list depends on its own cells only. -/
theorem Ring.congr (h : l.Ring head xs) (hnext : ∀ x ∈ head :: xs, l'.next x = l.next x)
    (hprev : ∀ x ∈ head :: xs, l'.prev x = l.prev x) : l'.Ring head xs := by
  refine ⟨h.path.congr hnext (fun x hx => hprev x ?_), h.nodup⟩
  simpa [or_comm] using hx

theorem Path.unique (h : l.Path a xs b) (h' : l.Path a ys b) (hb : b ∉ xs) (hb' : b ∉ ys) :
    xs = ys := by
  induction xs generalizing a ys with
  | nil =>
    cases ys with
    | nil => rfl
    | cons y ys => exact absurd (h.1.symm.trans h'.1) (fun he => hb' (he ▸ List.mem_cons_self))
  | cons x xs ih =>
    cases ys with
    | nil => exact absurd (h'.1.symm.trans h.1) (fun he => hb (he ▸ List.mem_cons_self))
    | cons y ys =>
      obtain rfl : x = y := h.1.symm.trans h'.1
      rw [List.mem_cons, not_or] at hb hb'
      rw [ih h.2.2 h'.2.2 hb.2 hb'.2]

/-- The links say which cells a list holds. -/
theorem Ring.unique (h : l.Ring head xs) (h' : l.Ring head ys) : xs = ys :=
  h.path.unique h'.path (List.nodup_cons.mp h.nodup).1 (List.nodup_cons.mp h'.nodup).1

section
variable [DecidableEq A]

theorem Path.rm (hys : l.Path a ys p) (hzs : l.Path p zs b)
    (hnodup : (a :: (ys ++ p :: zs)).Nodup) (hb : b ∉ ys ++ p :: zs) :
    (l.rm p).Path a (ys ++ zs) b := by
  have hprev := hys.prev_mem
  have hnext := hzs.next_mem
  induction ys generalizing a with
  | nil =>
    have ha : l.prev p = a := hys.2
    rw [List.nil_append, List.nodup_cons, List.nodup_cons] at hnodup
    cases zs with
    | nil =>
      have hp : l.next p = b := hzs.1
      exact ⟨by simp [Links.rm, setNext, setPrev, ha, hp],
        by simp [Links.rm, setNext, setPrev, ha, hp]⟩
    | cons z zs =>
      obtain ⟨hz, -, hrest⟩ := hzs
      refine ⟨by simp [Links.rm, setNext, setPrev, ha, hz],
        by simp [Links.rm, setNext, setPrev, ha, hz], hrest.congr (fun x hx => ?_) (fun x hx => ?_)⟩
      · have hne : x ≠ a := by
          intro he
          exact hnodup.1 (List.mem_cons_of_mem _ (he ▸ hx))
        simp [Links.rm, setNext, setPrev, ha, hne]
      · have hne : x ≠ z := by
          intro he
          rcases List.mem_append.mp hx with hx | hx
          · exact (List.nodup_cons.mp hnodup.2.2).1 (he ▸ hx)
          · rw [List.mem_singleton] at hx
            exact hb (by simp [← hx, he])
        simp [Links.rm, setNext, setPrev, hz, hne]
  | cons y ys ih =>
    obtain ⟨hay, hya, hrest⟩ := hys
    rw [List.cons_append, List.nodup_cons] at hnodup
    rw [List.cons_append, List.mem_cons, not_or] at hb
    have hprev' := hrest.prev_mem
    have hane : a ≠ l.prev p := by
      intro he
      apply hnodup.1
      rw [he, ← List.cons_append]
      exact List.mem_append_left _ hprev'
    have hyne : y ≠ l.next p := by
      intro he
      rcases List.mem_append.mp hnext with hin | hin
      · exact (List.nodup_cons.mp hnodup.2).1 (by simp [he, hin])
      · rw [List.mem_singleton] at hin
        exact hb.1 (he.trans hin).symm
    refine ⟨?_, ?_, ih hrest hnodup.2 hb.2 hprev'⟩
    · simp [Links.rm, setNext, setPrev, hane, hay]
    · simp [Links.rm, setNext, setPrev, hyne, hya]

theorem ring_init (l : Links A) (head : A) : (l.init head).Ring head [] where
  path := by simp [Path, init, setNext, setPrev]
  nodup := List.nodup_singleton head

/-- A list started elsewhere leaves this one as it was. -/
theorem Ring.init_other (h : l.Ring head xs) (hp : p ∉ head :: xs) : (l.init p).Ring head xs := by
  have hne : ∀ x ∈ head :: xs, x ≠ p := fun x hx he => hp (he ▸ hx)
  apply h.congr
  · intro x hx
    simp [init, setNext, setPrev, hne x hx]
  · intro x hx
    simp [init, setNext, setPrev, hne x hx]

/-- A cell that only names itself can be taken out of nothing. -/
theorem init_rm (l : Links A) (p : A) : (l.init p).rm p = l.init p := by
  simp [init, Links.rm, setNext, setPrev]

/-- Taking a cell out leaves the others in their order. -/
theorem Ring.rm (h : l.Ring head xs) (hp : p ∈ xs) : (l.rm p).Ring head (xs.erase p) := by
  obtain ⟨hpath, hnodup⟩ := h
  obtain ⟨ys, zs, rfl⟩ := List.append_of_mem hp
  obtain ⟨hys, hzs⟩ := path_append.mp hpath
  have hout := (List.nodup_cons.mp hnodup).1
  have hpys : p ∉ ys := by
    intro hin
    rw [List.nodup_cons, List.nodup_append] at hnodup
    exact hnodup.2.2.2 p hin p List.mem_cons_self rfl
  have herase : (ys ++ p :: zs).erase p = ys ++ zs := by
    rw [List.erase_append_right _ hpys, List.erase_cons_head]
  rw [herase]
  refine ⟨hys.rm hzs hnodup hout, ?_⟩
  refine hnodup.sublist (List.Sublist.cons_cons _ (List.Sublist.append_left ?_ ys))
  exact List.sublist_cons_self p zs

/-- A new cell comes first. -/
theorem Ring.addAfter (h : l.Ring head xs) (hp : p ∉ head :: xs) :
    (l.addAfter head p).Ring head (p :: xs) := by
  obtain ⟨hpath, hnodup⟩ := h
  rw [List.mem_cons, not_or] at hp
  have hhead := (List.nodup_cons.mp hnodup).1
  refine ⟨?_, ?_⟩
  · cases xs with
    | nil =>
      have hn : l.next head = head := hpath.1
      simp [Path, Links.addAfter, setNext, setPrev, hn, hp.1]
    | cons x xs =>
      obtain ⟨hx, -, hrest⟩ := hpath
      have hpx : p ≠ x := fun he => hp.2 (he ▸ List.mem_cons_self)
      have hhx : head ≠ x := fun he => hhead (he ▸ List.mem_cons_self)
      refine ⟨by simp [Links.addAfter, setNext, setPrev], ?_, ?_, ?_, hrest.congr ?_ ?_⟩
      · simp [Links.addAfter, setNext, setPrev, hx, hpx]
      · simp [Links.addAfter, setNext, setPrev, hx, hp.1]
      · simp [Links.addAfter, setNext, setPrev, hx]
      · intro y hy
        have hyh : y ≠ head := fun he => hhead (he ▸ hy)
        have hyp : y ≠ p := fun he => hp.2 (he ▸ hy)
        simp [Links.addAfter, setNext, setPrev, hyh, hyp]
      · intro y hy
        have hyx : y ≠ x := by
          intro he
          rcases List.mem_append.mp hy with hy | hy
          · rw [List.nodup_cons, List.nodup_cons] at hnodup
            exact hnodup.2.1 (he ▸ hy)
          · rw [List.mem_singleton] at hy
            exact hhx (hy ▸ he)
        have hyp : y ≠ p := by
          intro he
          rcases List.mem_append.mp hy with hy | hy
          · exact hp.2 (List.mem_cons_of_mem _ (he ▸ hy))
          · rw [List.mem_singleton] at hy
            exact hp.1 (he ▸ hy)
        simp [Links.addAfter, setNext, setPrev, hx, hyx, hyp]
  · have hph : ¬ head = p := fun he => hp.1 he.symm
    rw [List.nodup_cons, List.mem_cons, not_or]
    exact ⟨⟨hph, hhead⟩, List.nodup_cons.mpr ⟨hp.2, (List.nodup_cons.mp hnodup).2⟩⟩

theorem Path.search {test : A → Except E Bool} {passes : A → Bool} {fuel : E} {n : Nat}
    (h : l.Path a xs head) (hout : head ∉ xs) (htest : ∀ x ∈ xs, test x = .ok (passes x))
    (hfuel : xs.length < n) :
    l.search head test fuel n (l.next a) = .ok ((xs.find? passes).getD head) := by
  induction xs generalizing a n with
  | nil =>
    cases n with
    | zero => exact absurd hfuel (Nat.lt_irrefl 0)
    | succ n => simp [Links.search, h.1, pure, Except.pure]
  | cons x xs ih =>
    cases n with
    | zero => exact absurd hfuel (Nat.not_lt_zero _)
    | succ n =>
      obtain ⟨hx, -, hrest⟩ := h
      rw [List.mem_cons, not_or] at hout
      rw [List.forall_mem_cons] at htest
      rw [hx, Links.search, if_neg (Ne.symm hout.1), List.find?_cons, htest.1]
      cases hp : passes x with
      | true => simp [bind, Except.bind, pure, Except.pure]
      | false =>
        have hsearch := ih hrest hout.2 htest.2 (Nat.lt_of_succ_lt_succ hfuel)
        simpa [bind, Except.bind] using hsearch

/-- The search ends at the first cell that passes, or at the head. -/
theorem Ring.search {test : A → Except E Bool} {passes : A → Bool} {fuel : E} {n : Nat}
    (h : l.Ring head xs) (htest : ∀ x ∈ xs, test x = .ok (passes x)) (hfuel : xs.length < n) :
    l.search head test fuel n (l.next head) = .ok ((xs.find? passes).getD head) :=
  h.path.search (List.nodup_cons.mp h.nodup).1 htest hfuel

theorem Path.searched {test : A → Except E Bool} {passes : A → Bool} {fuel : E} {n : Nat}
    (h : l.Path a xs head) (hout : head ∉ xs) (htest : ∀ x ∈ xs, test x = .ok (passes x))
    (hfuel : xs.length < n) :
    l.searched head test fuel n (l.next a) = .ok (xs.take (xs.findIdx passes + 1)) := by
  induction xs generalizing a n with
  | nil =>
    cases n with
    | zero => exact absurd hfuel (Nat.lt_irrefl 0)
    | succ n => simp [Links.searched, h.1, pure, Except.pure]
  | cons x xs ih =>
    cases n with
    | zero => exact absurd hfuel (Nat.not_lt_zero _)
    | succ n =>
      obtain ⟨hx, -, hrest⟩ := h
      rw [List.mem_cons, not_or] at hout
      rw [List.forall_mem_cons] at htest
      rw [hx, Links.searched, if_neg (Ne.symm hout.1), List.findIdx_cons, htest.1]
      cases hp : passes x with
      | true => simp [bind, Except.bind, pure, Except.pure]
      | false =>
        have hsearch := ih hrest hout.2 htest.2 (Nat.lt_of_succ_lt_succ hfuel)
        simp [bind, Except.bind, hsearch, pure, Except.pure]

/-- The search tests the cells up to the first that passes, or all of them. -/
theorem Ring.searched {test : A → Except E Bool} {passes : A → Bool} {fuel : E} {n : Nat}
    (h : l.Ring head xs) (htest : ∀ x ∈ xs, test x = .ok (passes x)) (hfuel : xs.length < n) :
    l.searched head test fuel n (l.next head) = .ok (xs.take (xs.findIdx passes + 1)) :=
  h.path.searched (List.nodup_cons.mp h.nodup).1 htest hfuel

end

end Links

end Mepl.Base
