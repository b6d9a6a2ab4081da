import Mepl.Base.Stream
import Mepl.C.Machine

namespace Mepl

/-- `*p == '\0'` -/
def atNul (a : List Byte) (p : Nat) : Res Bool := do
  pure ((← load a p) == 0#8)

/-- `int c = *p; p++` -/
def nextChar (a : List Byte) (p : Nat) : Res (Int × Nat) := do
  pure (charToInt (← load a p), p + 1)

/-- The characters the cursor still passes before the first NUL. -/
def pending (a : List Byte) (p : Nat) : List Byte :=
  (a.drop p).takeWhile (· != 0#8)

/-- There is a NUL at the cursor or after it. -/
def Ended (a : List Byte) (p : Nat) : Prop := 0#8 ∈ a.drop p

theorem Ended.lt {a : List Byte} {p : Nat} (h : Ended a p) : p < a.length := by
  have := List.length_pos_of_mem h
  simp at this
  omega

theorem Ended.split {a : List Byte} {p : Nat} (h : Ended a p) :
    ∃ x, load a p = .ok x ∧ a.drop p = x :: a.drop (p + 1) := by
  have hlt := h.lt
  exact ⟨a[p], by simp [load, hlt], List.drop_eq_getElem_cons hlt⟩

theorem Ended.at {a : List Byte} {p : Nat} (h : Ended a p) :
    atNul a p = .ok (pending a p).isEmpty := by
  obtain ⟨x, hl, hd⟩ := h.split
  rw [atNul, hl, pending, hd]
  by_cases hz : x = 0#8 <;> simp [hz]

theorem Ended.next {a : List Byte} {p : Nat} (h : Ended a p)
    (hp : pending a p = x :: xs) :
    nextChar a p = .ok (charToInt x, p + 1) ∧ Ended a (p + 1) ∧ pending a (p + 1) = xs := by
  obtain ⟨y, hl, hd⟩ := h.split
  unfold Ended at h ⊢
  rw [pending, hd] at hp
  rw [hd] at h
  by_cases hz : y = 0#8
  · simp [hz] at hp
  · have hne : ¬ 0#8 = y := fun he => hz he.symm
    simp only [bne_iff_ne, ne_eq, hz, not_false_eq_true, List.takeWhile_cons_of_pos,
      List.cons.injEq] at hp
    simp only [List.mem_cons, hne, false_or] at h
    exact ⟨by simp [nextChar, hl, hp.1], h, hp.2⟩

/-- Storing bs and a terminator at the start of the array. -/
theorem ended_stored (bs rest : List Byte) : Ended (bs ++ 0#8 :: rest) 0 := by
  simp [Ended]

theorem pending_stored (bs rest : List Byte) :
    pending (bs ++ 0#8 :: rest) 0 = bs.takeWhile (· != 0#8) := by
  unfold pending
  induction bs with
  | nil => simp
  | cons b bs ih => by_cases hb : b = 0#8 <;> simp [hb] at ih ⊢; exact ih

end Mepl
