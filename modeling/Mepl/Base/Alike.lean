import Mathlib.Data.List.Basic

namespace Mepl.Base

variable {ε α β γ δ : Type}

/-- Two computations stop for the same reason, or return related results. -/
inductive Alike (P : α → β → Prop) : Except ε α → Except ε β → Prop
  | stop (e : ε) : Alike P (.error e) (.error e)
  | ret {a : α} {b : β} (related : P a b) : Alike P (.ok a) (.ok b)

theorem Alike.bind {P : α → β → Prop} {Q : γ → δ → Prop} {x : Except ε α} {y : Except ε β}
    {f : α → Except ε γ} {g : β → Except ε δ} (h : Alike P x y)
    (hk : ∀ a b, y = .ok b → P a b → Alike Q (f a) (g b)) : Alike Q (x >>= f) (y >>= g) := by
  cases h with
  | stop e => exact .stop e
  | ret related => exact hk _ _ rfl related

/-- Where only the second computation goes on. -/
theorem Alike.bind_right {P : α → β → Prop} {Q : α → δ → Prop} {x : Except ε α}
    {y : Except ε β} {g : β → Except ε δ} (h : Alike P x y)
    (hk : ∀ a b, y = .ok b → P a b → Alike Q (.ok a) (g b)) : Alike Q x (y >>= g) := by
  cases h with
  | stop e => exact .stop e
  | ret related => exact hk _ _ rfl related

theorem Alike.imp {P Q : α → β → Prop} {x : Except ε α} {y : Except ε β} (h : Alike P x y)
    (hpq : ∀ a b, P a b → Q a b) : Alike Q x y := by
  cases h with
  | stop e => exact .stop e
  | ret related => exact .ret (hpq _ _ related)

theorem Alike.ok {P : α → β → Prop} {x : Except ε α} {b : β} (h : Alike P x (.ok b)) :
    ∃ a, x = .ok a ∧ P a b := by
  cases h with
  | ret related => exact ⟨_, rfl, related⟩

theorem Alike.ok_left {P : α → β → Prop} {y : Except ε β} {a : α} (h : Alike P (.ok a) y) :
    ∃ b, y = .ok b ∧ P a b := by
  cases h with
  | ret related => exact ⟨_, rfl, related⟩

theorem Alike.error {P : α → β → Prop} {x : Except ε α} {e : ε} (h : Alike P x (.error e)) :
    x = .error e := by
  cases h with
  | stop => rfl

end Mepl.Base
