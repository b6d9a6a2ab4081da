import Mathlib.Data.List.Nodup

namespace Mepl.Base

variable {K : Type}

/-- No more than n different cells are below n. -/
theorem length_le_of_lt {ks : List Nat} {n : Nat} (hnodup : ks.Nodup) (hlt : ∀ k ∈ ks, k < n) :
    ks.length ≤ n := by
  have hsub : ks ⊆ List.range n := fun k hk => List.mem_range.mpr (hlt k hk)
  have hle := List.Nodup.length_le_of_subset hnodup hsub
  rwa [List.length_range] at hle

/-- A value put between those it has to follow and those that have to follow it. -/
theorem pairwise_insert {α : Type} {R : α → α → Prop} {xs ys : List α} {x : α}
    (h : (xs ++ ys).Pairwise R) (hlo : ∀ a ∈ xs, R a x) (hhi : ∀ b ∈ ys, R x b) :
    (xs ++ x :: ys).Pairwise R := by
  rw [List.pairwise_append] at h ⊢
  obtain ⟨hx, hy, hxy⟩ := h
  refine ⟨hx, List.pairwise_cons.mpr ⟨hhi, hy⟩, fun a ha b hb => ?_⟩
  rcases List.mem_cons.mp hb with rfl | hb
  · exact hlo a ha
  · exact hxy a ha b hb

/-- From p on, the cells ks and then the end. -/
inductive Chain (next : K → Option (Option K)) : Option K → List K → Prop
  | nil : Chain next none []
  | cons {k : K} {p : Option K} {ks : List K} (cell : next k = some p) (rest : Chain next p ks) :
      Chain next (some k) (k :: ks)

namespace Chain
variable {next next' : K → Option (Option K)} {p q : Option K} {k : K} {ks ks' xs ys : List K}

/-- A chain depends on its own cells only. -/
theorem congr (h : Chain next p ks) (hsame : ∀ k ∈ ks, next' k = next k) : Chain next' p ks := by
  induction h with
  | nil => exact .nil
  | cons cell rest ih =>
    have hk := (hsame _ List.mem_cons_self).trans cell
    exact .cons hk (ih (fun j hj => hsame j (List.mem_cons_of_mem _ hj)))

theorem unique (h : Chain next p ks) (h' : Chain next p ks') : ks = ks' := by
  induction h generalizing ks' with
  | nil =>
    cases h'
    rfl
  | cons cell rest ih =>
    cases h' with
    | cons cell' rest' =>
      rw [cell] at cell'
      cases cell'
      rw [ih rest']

theorem head (h : Chain next p ks) : p = ks.head? := by
  cases h <;> rfl

theorem suffix (h : Chain next p (xs ++ ys)) : Chain next ys.head? ys := by
  induction xs generalizing p with
  | nil =>
    have hp := h.head
    exact hp ▸ h
  | cons x xs ih =>
    cases h with
    | cons cell rest => exact ih rest

theorem cell_mem (h : Chain next p ks) (hk : k ∈ ks) : ∃ q, next k = some q := by
  induction h with
  | nil => cases hk
  | cons cell rest ih =>
    rcases List.mem_cons.mp hk with rfl | hk
    · exact ⟨_, cell⟩
    · exact ih hk

/-- A chain that ends never comes back to a cell: the way on from there would
be longer than itself. -/
theorem nodup (h : Chain next p ks) : ks.Nodup := by
  induction h with
  | nil => exact List.nodup_nil
  | @cons k p ks cell rest ih =>
    refine List.nodup_cons.mpr ⟨?_, ih⟩
    intro hk
    obtain ⟨xs, ys, rfl⟩ := List.append_of_mem hk
    have hlonger := (rest.suffix).unique (.cons cell rest)
    have hlen := congrArg List.length hlonger
    simp at hlen
    omega

/-- A cell put in between, which the last cell before it now names. -/
theorem insert (h : Chain next p (xs ++ ys)) (hnew : next' k = some ys.head?)
    (hlast : ∀ x, xs.getLast? = some x → next' x = some (some k))
    (hsame : ∀ x ∈ xs ++ ys, xs.getLast? ≠ some x → next' x = next x) :
    Chain next' (xs ++ k :: ys).head? (xs ++ k :: ys) := by
  induction xs generalizing p with
  | nil =>
    have hys : Chain next ys.head? ys := h.head ▸ h
    exact .cons hnew (hys.congr (fun y hy => hsame y hy (by simp)))
  | cons x xs ih =>
    have hnodup := h.nodup
    cases h with
    | cons cell rest =>
      rw [List.cons_append, List.nodup_cons] at hnodup
      cases xs with
      | nil =>
        refine .cons (hlast x rfl) (ih rest (by simp) (fun y hy _ => ?_))
        refine hsame y (List.mem_cons_of_mem _ hy) (fun he => ?_)
        have hxy : x = y := by simpa using he
        exact hnodup.1 (hxy ▸ hy)
      | cons x' xs =>
        have hx : (x' :: xs).getLast? ≠ some x :=
          fun he => hnodup.1 (List.mem_append_left ys (List.mem_of_getLast? he))
        have hhead := rest.head
        refine .cons ?_ (ih rest hlast (fun y hy => hsame y (List.mem_cons_of_mem _ hy)))
        rw [hsame x List.mem_cons_self hx, cell, hhead]
        rfl

end Chain

end Mepl.Base
