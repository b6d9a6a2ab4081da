import Mepl.Lex.Invariant

namespace Mepl
open Base

/-- What is left to be read after a call, given what was before. -/
def Consumes (v rest : List Byte) : Prop := rest <:+ v ∧ rest.length < v.length

/-- The loop of main ends at TT_EOF, or the program in usage(). -/
inductive Ends {σ : Type} : Res (Lex σ) → Prop
  | eof {l : Lex σ} (type : l.lType = TT.eof.val) : Ends (.ok l)
  | usage (fmt : String) (arg : List Byte) : Ends (.error (.usage fmt arg))

/-- A run over v: each state printed comes from a call that took characters, and
there are no more such calls than characters. -/
structure RunEnds {σ : Type} (R : σ → List Int → Prop) (v : List Byte)
    (run : List (Lex σ) × Res (Lex σ)) : Prop where
  consumes : ∃ rests, List.Forall₂ (fun l rest => R l.lBuf (codes rest)) run.1 rests ∧
    (v :: rests).IsChain Consumes
  calls : run.1.length ≤ v.length
  ends : Ends run.2

theorem lexed_usage {v : List Byte} {e : Stop} (h : lexed KWORDS (codes v) = .error e) :
    ∃ fmt arg, e = .usage fmt arg := by
  rw [lexed_next] at h
  split at h
  · cases h
  · cases h
    exact ⟨_, _, rfl⟩
  · cases h
    exact ⟨_, _, rfl⟩
  · cases h

/-- A call that leaves a token takes at least one character. -/
theorem lexed_consumes {v : List Byte} {t : Lexed} (h : lexed KWORDS (codes v) = .ok t)
    (hne : t.type ≠ TT.eof.val) : ∃ rest, t.rest = codes rest ∧ Consumes v rest := by
  rcases lexed_codes h with rfl | ⟨tok, gap, rest, left, htok, hv, hleft, -, rfl⟩
  · exact absurd rfl hne
  · have hpos := List.length_pos_of_ne_nil htok.spelling
    have hle := hleft.length_le
    refine ⟨left, rfl, ?_, ?_⟩
    · rw [hv]
      exact hleft.trans (List.suffix_append _ rest)
    · rw [hv, List.length_append, List.length_append]
      omega

section
variable {σ : Type} {getc : σ → Res (Int × σ)} {R : Nat → σ → List Int → Prop}

theorem mainLoop_ends (hs : ServesFor getc BUF_EOF R) {fuel n : Nat} {v : List Byte}
    {x : Res (Lex σ)} (h : Alike (fun l t => Leaves (R 0) l t ∧
      (t.type ≠ TT.eof.val → Fed R 0 l.lBuf t.rest)) x (lexed KWORDS (codes v)))
    (hf : v.length + 1 < fuel) (hn : v.length < n) :
    RunEnds (R 0) v (mainLoop getc KWORDS fuel n x) := by
  induction n generalizing v x with
  | zero => exact absurd hn (Nat.not_lt_zero _)
  | succ n ih =>
    cases hv : lexed KWORDS (codes v) with
    | error e =>
      rw [hv] at h
      obtain ⟨fmt, arg, rfl⟩ := lexed_usage hv
      rw [h.error]
      exact ⟨⟨[], .nil, .singleton v⟩, Nat.zero_le _, .usage fmt arg⟩
    | ok t =>
      have hfound := lexed_found hv
      rw [hv] at h
      obtain ⟨l, rfl, hl, hfed⟩ := h.ok
      by_cases he : t.type = TT.eof.val
      · have htype : l.lType = TT.eof.val := hl.type.trans he
        simp only [mainLoop, htype, ↓reduceIte]
        exact ⟨⟨[], .nil, .singleton v⟩, Nat.zero_le _, .eof htype⟩
      · have htype : l.lType ≠ TT.eof.val := hl.type ▸ he
        obtain ⟨rest, hrest, hconsumes⟩ := lexed_consumes hv he
        have hlt := hconsumes.2
        have hbetween : Between (Fed R 0) l (codes rest) :=
          hrest ▸ (hl.imp (fun _ => hfed he)).between hfound
        have hnext := lexNext_fed hs KWORDS hbetween (n := fuel)
          (by simp only [codes, List.length_map]; omega)
        obtain ⟨⟨rests, hreads, hchain⟩, hcalls, hends⟩ := ih hnext (by omega) (by omega)
        have hnow : R 0 l.lBuf (codes rest) := hrest ▸ hl.reads
        simp only [mainLoop, htype, ↓reduceIte]
        exact ⟨⟨rest :: rests, .cons hnow hreads, .cons_cons hconsumes hchain⟩,
          by simp only [List.length_cons]; omega, hends⟩

end

section
variable {σ : Type} {getc : σ → Res (Int × σ)} {R : σ → List Int → Prop}

/-- Over n characters main's loop ends, after at most n + 1 calls of lex_next,
and where b_getc may be called only n + 2 times. -/
theorem lex_run_ends (hs : Serves getc BUF_EOF R) {b : σ} {w : List Byte} (hr : R b (codes w))
    {fuel calls : Nat} (hf : w.length + 1 < fuel) (hc : w.length + 2 ≤ calls) :
    RunEnds (fun (p : σ × Nat) vs => R p.1 vs) w
      (lexRun (metered getc .fault) KWORDS fuel (b, calls)) := by
  have hmeter := hs.metered Stop.fault
  have hlen : (codes w).length = w.length := List.length_map _
  have hfed : Fed (fun e (p : σ × Nat) vs => R p.1 vs ∧ vs.length + e ≤ p.2) 0 (b, calls)
      (codes w) := ⟨⟨hr, by simp only; omega⟩, fun _ => ⟨hr, by simp only; omega⟩⟩
  have hinit := between_init hfed
  have hfirst := lexNext_fed hmeter KWORDS (n := fuel) hinit (by omega)
  obtain ⟨⟨rests, hreads, hchain⟩, hcalls, hends⟩ :=
    mainLoop_ends hmeter (n := fuel) hfirst hf (by omega)
  exact ⟨⟨rests, hreads.imp (fun _ _ h => h.1), hchain⟩, hcalls, hends⟩

end

theorem lex_run_ends_ident : RunEnds (fun (p : List Int × Nat) vs => p.1 = vs) [97#8]
    (lexRun (metered (fromList BUF_EOF) .fault) KWORDS 3 (codes [97#8], 3)) :=
  lex_run_ends (from_list_serves BUF_EOF) rfl (Nat.lt_succ_self 2) (Nat.le_refl 3)

end Mepl
