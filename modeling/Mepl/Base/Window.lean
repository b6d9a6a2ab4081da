import Mathlib.Algebra.Order.Ring.Nat
import Mathlib.Data.Nat.ModEq

namespace Mepl.Base

variable {α : Type} {buf : List (Option α)} {rd : Nat} {xs : List α} {x : α}

/-- The values xs are in a circular array from the place rd on, around the end. A
cell is none until it is written. -/
structure Window (buf : List (Option α)) (rd : Nat) (xs : List α) : Prop where
  fits : xs.length ≤ buf.length
  get : ∀ k < xs.length, buf[(rd + k) % buf.length]? = some xs[k]?

/-- Different offsets within the size are different places. -/
theorem place_inj {n j k : Nat} (hj : j < n) (hk : k < n) (he : (rd + j) % n = (rd + k) % n) :
    j = k := by
  have hmod : j % n = k % n := Nat.ModEq.add_left_cancel' rd he
  rwa [Nat.mod_eq_of_lt hj, Nat.mod_eq_of_lt hk] at hmod

/-- The place after the window of one value more. -/
theorem place_succ (n rd k : Nat) : ((rd + k) % n + 1) % n = (rd + (k + 1)) % n := by
  rw [Nat.mod_add_mod, Nat.add_assoc]

theorem window_nil : Window buf rd ([] : List α) where
  fits := Nat.zero_le _
  get := by simp

/-- A value stored behind the window is its last one. -/
theorem Window.snoc (h : Window buf rd xs) (hroom : xs.length < buf.length) (x : α) :
    Window (buf.set ((rd + xs.length) % buf.length) (some x)) rd (xs ++ [x]) := by
  refine ⟨by simpa [Nat.succ_le_iff] using hroom, ?_⟩
  intro k hk
  rw [List.length_append, List.length_singleton] at hk
  rw [List.length_set]
  by_cases he : k = xs.length
  · have hlt : (rd + xs.length) % buf.length < buf.length := Nat.mod_lt _ (by omega)
    subst he
    simp [hlt]
  · have hlt : k < xs.length := by omega
    have hne : (rd + xs.length) % buf.length ≠ (rd + k) % buf.length := by
      intro hplace
      exact he (place_inj (by omega) hroom hplace.symm)
    rw [List.getElem?_set_ne hne, h.get k hlt, List.getElem?_append_left hlt]

theorem Window.head (h : Window buf rd (x :: xs)) : buf[rd % buf.length]? = some (some x) :=
  h.get 0 (Nat.zero_lt_succ _)

theorem Window.tail (h : Window buf rd (x :: xs)) : Window buf ((rd + 1) % buf.length) xs := by
  refine ⟨Nat.le_of_succ_le h.fits, ?_⟩
  intro k hk
  have hget := h.get (k + 1) (Nat.succ_lt_succ hk)
  rw [Nat.mod_add_mod, Nat.add_assoc, Nat.add_comm 1 k]
  exact hget

theorem Window.last (h : Window buf rd (xs ++ [x])) :
    buf[(rd + xs.length) % buf.length]? = some (some x) := by
  have hget := h.get xs.length (by simp)
  simpa using hget

theorem Window.init (h : Window buf rd (xs ++ [x])) : Window buf rd xs := by
  have hfits := h.fits
  rw [List.length_append] at hfits
  refine ⟨by omega, ?_⟩
  intro k hk
  have hget := h.get k (by simp; omega)
  rwa [List.getElem?_append_left hk] at hget

end Mepl.Base
