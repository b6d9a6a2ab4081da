import Mepl.Lib.DstrRuns

namespace Mepl

/-- The representation between two calls: what dstr_ok checks, and how d_len,
d_cap, d_cur and d_heap are tied to each other after k doublings. -/
structure DstrRep (d : Dstr) (k : Nat) : Prop where
  ok : dstrOk d = .ok ()
  cap : d.dCap = DSTR_SHORT_SIZE * 2 ^ k
  len : d.dLen ≤ d.dCap
  short : d.dLen ≤ DSTR_SHORT_SIZE ↔ d.dCur = .short
  heap : d.dCur = .short ↔ d.dHeap = none
  doubled : d.dHeap = none ↔ k = 0
  /-- d_cur points to d_cap + 1 bytes, with the terminator at d_len -/
  array : ∃ a, d.cur = .ok a ∧ a.length = d.dCap + 1 ∧ a[d.dLen]? = some (some 0#8)

theorem Holds.rep {cells : List Cell} {d : Dstr} (h : Holds cells d) : ∃ k, DstrRep d k := by
  have hok := h.ok
  cases h with
  | @short bs rest size =>
    refine ⟨0, hok, ?_, ?_, ?_, ?_, ?_, ?_⟩
    · rw [Nat.pow_zero, Nat.mul_one]
    · simp only
      omega
    · have hlen : bs.length ≤ DSTR_SHORT_SIZE := by omega
      exact ⟨fun _ => rfl, fun _ => hlen⟩
    · exact ⟨fun _ => rfl, fun _ => rfl⟩
    · exact ⟨fun _ => rfl, fun _ => rfl⟩
    · refine ⟨_, rfl, ?_, by simp⟩
      simp only [List.length_append, List.length_map, List.length_cons]
      omega
  | @heap cells rest inline k long size =>
    refine ⟨k + 1, hok, rfl, ?_, ?_, ?_, ?_, ?_⟩
    · simp only
      omega
    · have hlong : ¬ cells.length ≤ DSTR_SHORT_SIZE := by omega
      exact ⟨fun h => absurd h hlong, fun h => Place.noConfusion h⟩
    · simp
    · simp
    · refine ⟨_, rfl, ?_, by simp⟩
      simp only [List.length_append, List.length_cons]
      omega

/-- Every sequence of calls returns, from every access inside the array it is
to, and leaves the representation as it should be. -/
theorem dstr_rep_kept (ops : List DstrOp) (hm : MovesChecked ops) :
    ∃ p d k, dstrRun ops = .ok (p, d) ∧ DstrRep d k := by
  obtain ⟨p, d, hrun, hholds⟩ := run_stored ops hm
  obtain ⟨k, hrep⟩ := hholds.rep
  exact ⟨p, d, k, hrun, hrep⟩

theorem dstr_rep_kept_moved : ∃ p d k,
    dstrRun (List.replicate 32 (.push 97) ++ [.move]) = .ok (p, d) ∧ DstrRep d k :=
  dstr_rep_kept _ ((MovesChecked.of_not_mem (by simp)).move (by decide))

end Mepl
