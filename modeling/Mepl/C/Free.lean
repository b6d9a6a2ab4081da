import Mathlib.Data.List.Nodup
import Mepl.C.Machine

namespace Mepl

/-- Memory, and the blocks that free() was given: none of them may be used again. -/
structure Freeing (M B : Type) where
  mem : M
  freed : List B

namespace Freeing
variable {M B : Type} [DecidableEq B]

/-- An access to b. -/
def use (h : Freeing M B) (b : B) : Res Unit :=
  if b ∈ h.freed then .error .fault else pure ()

/-- `free(b)` -/
def free (h : Freeing M B) (b : B) : Res (Freeing M B) :=
  if b ∈ h.freed then .error .fault else pure { h with freed := h.freed ++ [b] }

variable {h : Freeing M B} {b : B}

theorem use_held (hb : b ∉ h.freed) : h.use b = .ok () := if_neg hb

theorem free_held (hb : b ∉ h.freed) : h.free b = .ok { h with freed := h.freed ++ [b] } :=
  if_neg hb

end Freeing

/-- A block that comes last of those to be given back is still there for all of
the others. -/
theorem Freeing.last_held {B : Type} {freed blocks : List B} {b : B}
    (h : (freed ++ (blocks ++ [b])).Nodup) : b ∉ freed ++ blocks := by
  rw [← List.append_assoc, List.nodup_append'] at h
  exact fun hin => h.2.2 hin (List.mem_singleton_self _)

end Mepl
