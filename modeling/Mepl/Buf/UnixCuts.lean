import Mepl.Buf.Agree

namespace Mepl
open Base

/-- Any two ways of cutting w into read() results give the same values. -/
def UnixCutFree (dataSize : Nat) (w : List Byte) : Prop :=
  ∀ cs ds, Cuts dataSize w cs → Cuts dataSize w ds →
    ∀ n, unixValues dataSize cs n = unixValues dataSize ds n

/-- There is at most one way to cut, or all that follows the first NUL reads
as end of file wherever a piece starts. -/
def UnixSafe (dataSize : Nat) (w : List Byte) : Prop :=
  dataSize ≤ 1 ∨ ∀ b ∈ w.dropWhile (· != 0#8), b = 0#8 ∨ b = 0xff#8

/-- What buf_unix makes of a byte that is a read() result of its own. -/
def byteAlone (b : Byte) : Int := if b = 0#8 then BUF_EOF else charToInt b

theorem unixChunk_alone (b : Byte) : unixChunk [b] = [byteAlone b] := by
  by_cases hb : b = 0#8 <;> simp [unixChunk, byteAlone, hb]

theorem byteAlone_eof (b : Byte) : byteAlone b = BUF_EOF ↔ b = 0#8 ∨ b = 0xff#8 := by
  by_cases hb : b = 0#8 <;> simp [byteAlone, hb, char_to_int_eof]

theorem singles_chunks (w : List Byte) :
    (w.map (fun b => [b])).flatMap unixChunk = w.map byteAlone := by
  induction w with
  | nil => rfl
  | cons b w ih => simp [unixChunk_alone, ih]

theorem singles_cut (dataSize : Nat) (hd : 1 ≤ dataSize) (w : List Byte) :
    Cuts dataSize w (w.map (fun b => [b])) := by
  refine ⟨by induction w <;> simp_all, ?_, ?_⟩ <;> simp [hd]

/-- With room for one byte there is one way to cut. -/
theorem Cuts.singles {dataSize : Nat} {w : List Byte} {cs : List (List Byte)}
    (h : Cuts dataSize w cs) (hd : dataSize ≤ 1) : cs = w.map (fun b => [b]) := by
  obtain ⟨hw, hne, hfit⟩ := h
  induction cs generalizing w with
  | nil => subst hw; rfl
  | cons c cs ih =>
    have hlen : c.length = 1 := by
      have := hfit c List.mem_cons_self
      have := List.length_pos_of_ne_nil (hne c List.mem_cons_self)
      omega
    obtain ⟨b, rfl⟩ := List.length_eq_one_iff.mp hlen
    have ht := ih rfl (fun c hc => hne c (List.mem_cons_of_mem _ hc))
      (fun c hc => hfit c (List.mem_cons_of_mem _ hc))
    subst hw
    rw [List.flatten_cons, List.map_append]
    exact congrArg ([b] :: ·) ht

/-- Chunks of bytes that read as end of file give end of file only. -/
theorem eof_chunks {cs : List (List Byte)} (h : ∀ b ∈ cs.flatten, b = 0#8 ∨ b = 0xff#8) :
    ∀ v ∈ cs.flatMap unixChunk, v = BUF_EOF := by
  intro v hv
  obtain ⟨c, hc, hv⟩ := List.mem_flatMap.mp hv
  unfold unixChunk at hv
  split at hv
  · exact List.mem_singleton.mp hv
  · obtain ⟨b, hb, rfl⟩ := List.mem_map.mp hv
    have hbc : b ∈ c := (List.takeWhile_sublist _).subset hb
    have hnz : b ≠ 0#8 := by simpa using List.mem_takeWhile_imp hb
    have hff := (h b (List.mem_flatten.mpr ⟨c, hc, hbc⟩)).resolve_left hnz
    exact (char_to_int_eof b).mpr hff

/-- However w is cut, the values are its characters before the first NUL, and
then end-of-file markers. -/
theorem unix_safe_values {w : List Byte} {cs : List (List Byte)} (hw : cs.flatten = w)
    (hne : ∀ c ∈ cs, c ≠ [])
    (hs : ∀ b ∈ w.dropWhile (· != 0#8), b = 0#8 ∨ b = 0xff#8) :
    ∃ k, cs.flatMap unixChunk =
      (w.takeWhile (· != 0#8)).map charToInt ++ List.replicate k BUF_EOF := by
  induction cs generalizing w with
  | nil => subst hw; exact ⟨0, rfl⟩
  | cons c cs ih =>
    subst hw
    rw [List.flatten_cons] at hs ⊢
    have hcn := hne c List.mem_cons_self
    by_cases hz : 0#8 ∈ c
    · obtain ⟨p, q, rfl, hp⟩ := List.eq_append_cons_of_mem hz
      have htake : (p ++ 0#8 :: q ++ cs.flatten).takeWhile (· != 0#8) = p := by
        rw [List.append_assoc, List.takeWhile_append_of_pos (nul_free_pos hp)]
        simp
      have hdrop : (p ++ 0#8 :: q ++ cs.flatten).dropWhile (· != 0#8) =
          0#8 :: (q ++ cs.flatten) := by
        rw [List.append_assoc, List.dropWhile_append_of_pos (nul_free_pos hp)]
        simp
      rw [hdrop] at hs
      rw [htake]
      have hrest := @eof_chunks cs (fun b hb => hs b (by simp [hb]))
      have htail := List.eq_replicate_of_mem hrest
      have hchunk : unixChunk (p ++ 0#8 :: q) = if p = [] then [BUF_EOF] else p.map charToInt := by
        have : (p ++ 0#8 :: q).takeWhile (· != 0#8) = p := by
          rw [List.takeWhile_append_of_pos (nul_free_pos hp)]
          simp
        rw [unixChunk, this]
        cases p <;> simp
      rw [List.flatMap_cons, htail, hchunk]
      by_cases hpe : p = []
      · exact ⟨_, by simp [hpe, ← List.replicate_succ]; rfl⟩
      · exact ⟨_, by simp [hpe]; rfl⟩
    · have hpos := nul_free_pos hz
      rw [List.dropWhile_append_of_pos hpos] at hs
      obtain ⟨k, hk⟩ := ih rfl (fun c hc => hne c (List.mem_cons_of_mem _ hc)) hs
      exact ⟨k, by rw [List.flatMap_cons, hk, unixChunk_nul_free hcn hz,
        List.takeWhile_append_of_pos hpos, List.map_append, List.append_assoc]⟩

/-- A byte after a NUL that is not one itself follows a last NUL, with a first
other byte between them or at its place. -/
theorem nul_then_other {z : Byte} (hz : z ≠ 0#8) {t : List Byte} (hm : z ∈ t) :
    ∃ p y r, 0#8 :: t = p ++ 0#8 :: y :: r ∧ z ∈ y :: r := by
  induction t with
  | nil => simp at hm
  | cons x t ih =>
    by_cases hx : x = 0#8
    · subst hx
      obtain ⟨p, y, r, he, hr⟩ := ih ((List.mem_cons.mp hm).resolve_left hz)
      exact ⟨0#8 :: p, y, r, by rw [he]; rfl, hr⟩
    · exact ⟨[], x, t, rfl, hm⟩

/-- A sequence of values that ignores the loss of its first one was at its end
already. -/
theorem shift_eof {v : Int} {vs : List Int}
    (h : ∀ i, (v :: vs).getD i BUF_EOF = vs.getD i BUF_EOF) :
    ∀ u ∈ v :: vs, u = BUF_EOF := by
  induction vs generalizing v with
  | nil =>
    intro u hu
    rw [List.mem_singleton.mp hu]
    simpa using h 0
  | cons w ws ih =>
    have hvw : v = w := by simpa using h 0
    have ht := ih (fun i => by simpa using h (i + 1))
    intro u hu
    rcases List.mem_cons.mp hu with rfl | hu
    · exact hvw ▸ ht w List.mem_cons_self
    · exact ht u hu

/-- A byte other than NUL from the first NUL on has a NUL somewhere before it. -/
theorem nul_split {w : List Byte} {z : Byte} (h0 : ¬ z = 0#8)
    (hz : z ∈ w.dropWhile (· != 0#8)) : ∃ q y r, w = q ++ 0#8 :: y :: r ∧ z ∈ y :: r := by
  obtain ⟨t, ht⟩ : ∃ t, w.dropWhile (· != 0#8) = 0#8 :: t := by
    have hh := List.head?_dropWhile_not (· != 0#8) w
    cases hw : w.dropWhile (· != 0#8) with
    | nil => simp [hw] at hz
    | cons y ys =>
      simp only [hw, List.head?_cons] at hh
      exact ⟨ys, by simpa using hh⟩
  have hzt : z ∈ t := by
    rw [ht] at hz
    exact (List.mem_cons.mp hz).resolve_left h0
  obtain ⟨p, y, r, he, hzr⟩ := nul_then_other h0 hzt
  refine ⟨w.takeWhile (· != 0#8) ++ p, y, r, ?_, hzr⟩
  conv => lhs; rw [← List.takeWhile_append_dropWhile (p := (· != 0#8)) (l := w), ht, he]
  simp

/-- All bytes read one by one, but for two of them. -/
theorem pair_cut {dataSize : Nat} (hd : 1 < dataSize) (q r : List Byte) (x y : Byte) :
    Cuts dataSize (q ++ x :: y :: r)
      (q.map (fun b => [b]) ++ [x, y] :: r.map (fun b => [b])) := by
  have hq := singles_cut dataSize (Nat.le_of_lt hd) q
  have hr := singles_cut dataSize (Nat.le_of_lt hd) r
  constructor
  case whole =>
    simp only [List.flatten_append, List.flatten_cons, hq.whole, hr.whole]
    rfl
  case nonempty =>
    intro bs hb
    simp only [List.mem_append, List.mem_cons] at hb
    rcases hb with hb | rfl | hb
    · exact hq.nonempty bs hb
    · exact List.cons_ne_nil _ _
    · exact hr.nonempty bs hb
  case fits =>
    intro bs hb
    simp only [List.mem_append, List.mem_cons] at hb
    rcases hb with hb | rfl | hb
    · exact hq.fits bs hb
    · exact hd
    · exact hr.fits bs hb

/-- Two ways to cut show a NUL that a value other than end of file follows. -/
theorem unix_safe_of_free {dataSize : Nat} {w : List Byte} (h : UnixCutFree dataSize w) :
    UnixSafe dataSize w := by
  by_cases hd : dataSize ≤ 1
  · exact Or.inl hd
  right
  intro z hz
  by_contra hbad
  rw [not_or] at hbad
  obtain ⟨q, y, r, hw, hzr⟩ := nul_split hbad.1 hz
  -- the NUL and the byte after it in two results, and in one
  have hcs := singles_cut dataSize (by omega) w
  have hds := pair_cut (Nat.lt_of_not_le hd) q r 0#8 y
  rw [← hw] at hds
  have hpair : unixChunk [0#8, y] = [BUF_EOF] := by simp [unixChunk]
  have hcv : (w.map (fun b => [b])).flatMap unixChunk =
      q.map byteAlone ++ BUF_EOF :: byteAlone y :: r.map byteAlone := by
    rw [singles_chunks, hw]
    simp [byteAlone]
  have hdv : (q.map (fun b => [b]) ++ [0#8, y] :: r.map (fun b => [b])).flatMap unixChunk =
      q.map byteAlone ++ BUF_EOF :: r.map byteAlone := by
    simp only [List.flatMap_append, List.flatMap_cons, singles_chunks, hpair]
    rfl
  have hsame : ∀ n, upTo BUF_EOF (q.map byteAlone ++ BUF_EOF :: byteAlone y :: r.map byteAlone) n =
      upTo BUF_EOF (q.map byteAlone ++ BUF_EOF :: r.map byteAlone) n := by
    intro n
    have hn := h _ _ hcs hds n
    rw [unixValues_eq hcs.fits, unixValues_eq hds.fits, hcv, hdv] at hn
    exact Except.ok.inj hn
  rw [upTo_eq_iff] at hsame
  have hshift : ∀ i, (byteAlone y :: r.map byteAlone).getD i BUF_EOF =
      (r.map byteAlone).getD i BUF_EOF := by
    intro i
    have hi := hsame ((q.map byteAlone).length + 1 + i)
    rw [List.getD_append_right _ _ _ _ (by omega), List.getD_append_right _ _ _ _ (by omega)] at hi
    have hsub : (q.map byteAlone).length + 1 + i - (q.map byteAlone).length = i + 1 := by omega
    rw [hsub] at hi
    simpa using hi
  have hall := shift_eof hshift (byteAlone z) (by
    rw [← List.map_cons]
    exact List.mem_map_of_mem hzr)
  rcases (byteAlone_eof z).mp hall with h0 | hff
  · exact hbad.1 h0
  · exact hbad.2 hff

theorem unix_free_of_safe {dataSize : Nat} {w : List Byte} (h : UnixSafe dataSize w) :
    UnixCutFree dataSize w := by
  intro cs ds hcs hds n
  rw [unixValues_eq hcs.fits, unixValues_eq hds.fits]
  rcases h with hd | hs
  · rw [hcs.singles hd, hds.singles hd]
  · obtain ⟨j, hj⟩ := unix_safe_values hcs.whole hcs.nonempty hs
    obtain ⟨k, hk⟩ := unix_safe_values hds.whole hds.nonempty hs
    congr 1
    revert n
    rw [upTo_eq_iff, hj, hk]
    intro i
    rw [getD_pad, getD_pad]

end Mepl
