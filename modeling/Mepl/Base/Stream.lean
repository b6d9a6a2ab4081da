import Mathlib.Data.List.GetD

namespace Mepl.Base

variable {ε σ α : Type}

/-- The first n values a source gives, and the source after them. -/
def reads (get : σ → Except ε (α × σ)) : Nat → σ → Except ε (List α × σ)
  | 0, s => .ok ([], s)
  | n + 1, s =>
    match get s with
    | .error e => .error e
    | .ok (a, s) =>
      match reads get n s with
      | .error e => .error e
      | .ok (as, s) => .ok (a :: as, s)

/-- The first n of vs followed by stop for ever. -/
def upTo (stop : α) (vs : List α) : Nat → List α
  | 0 => []
  | n + 1 => vs.headD stop :: upTo stop vs.tail n

/-- R relates the states of a source to the values they still have to give:
one read gives the first of them, or stop when none is left. -/
def Serves (get : σ → Except ε (α × σ)) (stop : α) (R : σ → List α → Prop) : Prop :=
  ∀ s vs, R s vs → ∃ s', get s = .ok (vs.headD stop, s') ∧ R s' vs.tail

theorem Serves.reads {get : σ → Except ε (α × σ)} {stop : α} {R : σ → List α → Prop}
    (h : Serves get stop R) {s : σ} {vs : List α} (hr : R s vs) (n : Nat) :
    ∃ s', reads get n s = .ok (upTo stop vs n, s') ∧ R s' (vs.drop n) := by
  induction n generalizing s vs with
  | zero => exact ⟨s, rfl, hr⟩
  | succ n ih =>
    obtain ⟨t, hg, ht⟩ := h s vs hr
    obtain ⟨u, hu, hru⟩ := ih ht
    exact ⟨u, by simp [Base.reads, upTo, hg, hu], by simpa using hru⟩

theorem upTo_nil (stop : α) (n : Nat) : upTo stop [] n = List.replicate n stop := by
  induction n with
  | zero => rfl
  | succ n ih => simp [upTo, ih, List.replicate_succ]

/-- Reading past the values gives them all and then only the marker. -/
theorem upTo_length_add (stop : α) (vs : List α) (n : Nat) :
    upTo stop vs (vs.length + n) = vs ++ List.replicate n stop := by
  induction vs with
  | nil => simp [upTo_nil]
  | cons v vs ih =>
    rw [List.length_cons, Nat.succ_add]
    simp [upTo, ih]

theorem upTo_eq_map (stop : α) (vs : List α) (n : Nat) :
    upTo stop vs n = (List.range n).map (fun i => vs.getD i stop) := by
  induction n generalizing vs with
  | zero => rfl
  | succ n ih =>
    rw [List.range_succ_eq_map]
    cases vs <;> simp [upTo, ih, Function.comp_def]

/-- Two sources give the same values for ever when every position agrees. -/
theorem upTo_eq_iff (stop : α) (vs ws : List α) :
    (∀ n, upTo stop vs n = upTo stop ws n) ↔ ∀ i, vs.getD i stop = ws.getD i stop := by
  constructor
  · intro h i
    have hi := congrArg (fun l => l[i]?) (h (i + 1))
    simpa [upTo_eq_map] using hi
  · intro h n
    rw [upTo_eq_map, upTo_eq_map]
    exact List.map_congr_left (fun i _ => h i)

/-- Markers written out at the end of the values change nothing. -/
theorem getD_pad (stop : α) (vs : List α) (k i : Nat) :
    (vs ++ List.replicate k stop).getD i stop = vs.getD i stop := by
  rcases Nat.lt_or_ge i vs.length with hl | hl
  · exact List.getD_append _ _ _ _ hl
  · rw [List.getD_append_right _ _ _ _ hl, List.getD_eq_default _ _ hl, List.getD_eq_getElem?_getD,
      List.getElem?_getD_replicate_default_eq]

/-- What a source still has to give is determined, the marker apart. -/
theorem Serves.unique {get : σ → Except ε (α × σ)} {stop : α} {R : σ → List α → Prop}
    (h : Serves get stop R) {s : σ} {vs ws : List α} (hv : R s vs) (hw : R s ws)
    (hnv : stop ∉ vs) (hnw : stop ∉ ws) : vs = ws := by
  induction vs generalizing s ws with
  | nil =>
    cases ws with
    | nil => rfl
    | cons w ws =>
      obtain ⟨t, ht, _⟩ := h s [] hv
      obtain ⟨u, hu, _⟩ := h s (w :: ws) hw
      rw [ht] at hu
      have he : stop = w := congrArg Prod.fst (Except.ok.inj hu)
      exact absurd (he ▸ List.mem_cons_self) hnw
  | cons v vs ih =>
    obtain ⟨t, ht, hrt⟩ := h s (v :: vs) hv
    obtain ⟨u, hu, hru⟩ := h s ws hw
    rw [ht] at hu
    obtain ⟨hh, rfl⟩ := Prod.mk.inj (Except.ok.inj hu)
    cases ws with
    | nil =>
      have hvs : v = stop := hh
      exact absurd (hvs ▸ List.mem_cons_self) hnv
    | cons w ws =>
      have hvw : v = w := hh
      have htail : vs = ws := ih hrt hru (fun hm => hnv (List.mem_cons_of_mem _ hm))
        (fun hm => hnw (List.mem_cons_of_mem _ hm))
      rw [hvw, htail]

/-- Serves for a source that can be read past its values only so often: a state
in R e can be so e times more. -/
structure ServesFor (get : σ → Except ε (α × σ)) (stop : α) (R : Nat → σ → List α → Prop) :
    Prop where
  value : ∀ e s v vs, R e s (v :: vs) → ∃ s', get s = .ok (v, s') ∧ R e s' vs
  past : ∀ e s, R (e + 1) s [] → ∃ s', get s = .ok (stop, s') ∧ R e s' []
  fewer : ∀ e s vs, R (e + 1) s vs → R e s vs

theorem Serves.servesFor {get : σ → Except ε (α × σ)} {stop : α} {R : σ → List α → Prop}
    (h : Serves get stop R) : ServesFor get stop (fun _ => R) where
  value _ s v vs hr := h s (v :: vs) hr
  past _ s hr := h s [] hr
  fewer _ _ _ hr := hr

/-- A source that may be read so often, and fails with err after that. -/
def metered (get : σ → Except ε (α × σ)) (err : ε) : σ × Nat → Except ε (α × (σ × Nat))
  | (_, 0) => .error err
  | (s, n + 1) =>
    match get s with
    | .error e => .error e
    | .ok (a, s) => .ok (a, (s, n))

theorem Serves.metered {get : σ → Except ε (α × σ)} {stop : α} {R : σ → List α → Prop}
    (h : Serves get stop R) (err : ε) :
    ServesFor (metered get err) stop (fun e p vs => R p.1 vs ∧ vs.length + e ≤ p.2) where
  value e p v vs hr := by
    obtain ⟨s, n⟩ := p
    obtain ⟨hr, hn⟩ := hr
    obtain ⟨n, rfl⟩ : ∃ k, n = k + 1 := ⟨n - 1, by simp at hn; omega⟩
    obtain ⟨s', hg, hr'⟩ := h s (v :: vs) hr
    exact ⟨(s', n), by simp [Base.metered, hg], hr', by simp at hn ⊢; omega⟩
  past e p hr := by
    obtain ⟨s, n⟩ := p
    obtain ⟨hr, hn⟩ := hr
    obtain ⟨n, rfl⟩ : ∃ k, n = k + 1 := ⟨n - 1, by simp at hn; omega⟩
    obtain ⟨s', hg, hr'⟩ := h s [] hr
    exact ⟨(s', n), by simp [Base.metered, hg], hr', by simp at hn ⊢; omega⟩
  fewer e p vs hr := ⟨hr.1, Nat.le_of_succ_le hr.2⟩

/-- The values themselves as a source. -/
def fromList (stop : α) (vs : List α) : Except ε (α × List α) := .ok (vs.headD stop, vs.tail)

theorem from_list_serves (stop : α) :
    Serves (fromList (ε := ε) stop) stop (fun s vs => s = vs) := by
  rintro s vs rfl
  exact ⟨_, rfl, rfl⟩

end Mepl.Base
