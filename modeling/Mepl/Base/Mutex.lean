import Mathlib.Data.List.Perm.Basic
import Mathlib.Data.List.Perm.Subperm

namespace Mepl.Base

section
variable {α β : Type} {xs : List α} {i j : Nat} {a b c : α}

theorem set_get (h : (xs.set i b)[j]? = some c) : (j = i ∧ c = b) ∨ (j ≠ i ∧ xs[j]? = some c) := by
  by_cases he : j = i
  · subst he
    rw [List.getElem?_set_self'] at h
    cases hj : xs[j]? with
    | none => simp [hj] at h
    | some d =>
      left
      simpa [hj, eq_comm] using h
  · rw [List.getElem?_set_ne (Ne.symm he)] at h
    exact Or.inr ⟨he, h⟩

theorem set_at (b : α) (h : xs[i]? = some a) : (xs.set i b)[i]? = some b :=
  List.getElem?_set_self (List.getElem?_eq_some_iff.mp h).1

/-- What all threads have, when one of them goes from a to b. -/
theorem flatMap_set (f : α → List β) (h : xs[i]? = some a) (b : α) :
    ((xs.set i b).flatMap f ++ f a).Perm (xs.flatMap f ++ f b) := by
  induction xs generalizing i with
  | nil => cases h
  | cons x xs ih =>
    cases i with
    | zero =>
      cases h
      simp only [List.set_cons_zero, List.flatMap_cons, List.append_assoc]
      exact List.perm_append_comm.trans (by
        rw [List.append_assoc]
        exact List.perm_append_comm_assoc _ _ _)
    | succ i =>
      simp only [List.set_cons_succ, List.flatMap_cons, List.append_assoc]
      exact (ih h).append_left (f x)

/-- A thread that keeps what it has. -/
theorem flatMap_set_same {f : α → List β} (h : xs[i]? = some a) (hsame : f b = f a) :
    ((xs.set i b).flatMap f).Perm (xs.flatMap f) := by
  have hset := flatMap_set f h b
  rw [hsame] at hset
  exact (List.perm_append_right_iff _).mp hset

/-- A thread that gets something more. -/
theorem flatMap_set_more {f : α → List β} {ys : List β} (h : xs[i]? = some a)
    (hmore : f b = f a ++ ys) : ((xs.set i b).flatMap f).Perm (xs.flatMap f ++ ys) := by
  have hset := flatMap_set f h b
  rw [hmore, ← List.append_assoc, List.append_assoc] at hset
  refine (List.perm_append_right_iff (f a)).mp (hset.trans ?_)
  rw [List.append_assoc]
  exact List.perm_append_comm.append_left _

/-- A thread that gives something up. -/
theorem flatMap_set_less {f : α → List β} {ys : List β} (h : xs[i]? = some a)
    (hless : f a = f b ++ ys) : ((xs.set i b).flatMap f ++ ys).Perm (xs.flatMap f) := by
  have hset := flatMap_set f h b
  rw [hless, ← List.append_assoc] at hset
  refine (List.perm_append_right_iff (f b)).mp (List.Perm.trans ?_ hset)
  rw [List.append_assoc, List.append_assoc]
  exact List.perm_append_comm.append_left _

end

/-- Who is at a place under a mutex has it, and who has it is at one. -/
structure Guards {α : Type} (m : Option Nat) (locked : α → Bool) (xs : List α) : Prop where
  owner : ∀ (i : Nat) (a : α), xs[i]? = some a → locked a = true → m = some i
  holder : ∀ i : Nat, m = some i → ∃ a, xs[i]? = some a ∧ locked a = true

namespace Guards
variable {α : Type} {m : Option Nat} {locked : α → Bool} {xs : List α} {i j : Nat} {a b : α}

/-- No two threads are under one mutex. -/
theorem exclusive (h : Guards m locked xs) (hi : xs[i]? = some a) (hj : xs[j]? = some b)
    (ha : locked a = true) (hb : locked b = true) : i = j :=
  Option.some.inj ((h.owner i a hi ha).symm.trans (h.owner j b hj hb))

theorem nobody (h : ∀ a ∈ xs, locked a = false) : Guards none locked xs where
  owner := by
    intro i a hi ha
    rw [h a (List.mem_of_getElem? hi)] at ha
    cases ha
  holder := by simp

/-- A thread moves, and is under the mutex as before. -/
theorem stay (h : Guards m locked xs) (hi : xs[i]? = some a) (hsame : locked b = locked a) :
    Guards m locked (xs.set i b) where
  owner := by
    intro j c hj hc
    rcases set_get hj with ⟨rfl, rfl⟩ | ⟨-, hj⟩
    · exact h.owner j a hi (hsame ▸ hc)
    · exact h.owner j c hj hc
  holder := by
    intro j hj
    obtain ⟨c, hc, hlocked⟩ := h.holder j hj
    by_cases he : j = i
    · subst he
      rw [hi, Option.some.injEq] at hc
      exact ⟨b, set_at b hi, by rw [hsame, hc, hlocked]⟩
    · exact ⟨c, by rw [List.getElem?_set_ne (Ne.symm he), hc], hlocked⟩

theorem lock (h : Guards none locked xs) (hi : xs[i]? = some a) (hb : locked b = true) :
    Guards (some i) locked (xs.set i b) where
  owner := by
    intro j c hj hc
    rcases set_get hj with ⟨rfl, -⟩ | ⟨-, hj⟩
    · rfl
    · exact absurd (h.owner j c hj hc) (by simp)
  holder := by
    intro j hj
    cases hj
    exact ⟨b, set_at b hi, hb⟩

theorem unlock (h : Guards m locked xs) (hi : xs[i]? = some a) (ha : locked a = true)
    (hb : locked b = false) : Guards none locked (xs.set i b) where
  owner := by
    intro j c hj hc
    rcases set_get hj with ⟨rfl, rfl⟩ | ⟨hne, hj⟩
    · rw [hb] at hc
      cases hc
    · exact absurd (h.exclusive hj hi hc ha) hne
  holder := by simp

/-- A thread more, under no mutex. -/
theorem append (h : Guards m locked xs) (hb : locked b = false) :
    Guards m locked (xs ++ [b]) where
  owner := by
    intro j c hj hc
    rcases Nat.lt_or_ge j xs.length with hlt | hge
    · rw [List.getElem?_append_left hlt] at hj
      exact h.owner j c hj hc
    · rw [List.getElem?_append_right hge, List.getElem?_singleton] at hj
      split at hj
      · cases hj
        rw [hb] at hc
        cases hc
      · cases hj
  holder := by
    intro j hj
    obtain ⟨c, hc, hlocked⟩ := h.holder j hj
    have hlt := (List.getElem?_eq_some_iff.mp hc).1
    exact ⟨c, by rw [List.getElem?_append_left hlt, hc], hlocked⟩

end Guards

end Mepl.Base
