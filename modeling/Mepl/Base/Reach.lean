import Mathlib.Algebra.BigOperators.Group.Finset.Basic
import Mathlib.Algebra.Order.BigOperators.Group.Finset
import Mepl.Base.Trie

namespace Mepl.Base

variable {B K C : Type}

/-- What following pointers from the root leads to. -/
inductive Reach (root : B → Prop) (points : B → B → Prop) : B → Prop
  | root {b : B} (here : root b) : Reach root points b
  | step {a b : B} (there : Reach root points a) (next : points a b) : Reach root points b

/-- With no root, nothing is reached. -/
theorem not_reach {root : B → Prop} {points : B → B → Prop} (hroot : ∀ b, ¬ root b) (b : B) :
    ¬ Reach root points b := by
  intro h
  induction h with
  | root here => exact hroot _ here
  | step _ _ ih => exact ih

/-- A count that is the size of a header and of the blocks that are live. -/
def SizeCounts (live : B → Prop) (size : B → Nat) (header count : Nat) : Prop :=
  ∃ bs : Finset B, (∀ b, b ∈ bs ↔ live b) ∧ count = header + ∑ b ∈ bs, size b

/-- What is live and known is no more than what is counted. -/
theorem SizeCounts.le {live : B → Prop} {size : B → Nat} {header count : Nat}
    (h : SizeCounts live size header count) {bs : Finset B} (hbs : ∀ b ∈ bs, live b) :
    header + ∑ b ∈ bs, size b ≤ count := by
  obtain ⟨all, hall, rfl⟩ := h
  have hsub : bs ⊆ all := fun b hb => (hall b).mpr (hbs b hb)
  exact Nat.add_le_add_left (Finset.sum_le_sum_of_subset hsub) header

/-- With nothing live, there is the header only. -/
theorem size_counts_none {live : B → Prop} {size : B → Nat} {header : Nat}
    (hlive : ∀ b, ¬ live b) : SizeCounts live size header header :=
  ⟨∅, fun b => iff_of_false (Finset.notMem_empty b) (hlive b), rfl⟩

/-- Two kinds of blocks, each kind of one size. -/
theorem size_counts_two {live : Nat ⊕ Nat → Prop} {size : Nat ⊕ Nat → Nat} {n m a b header : Nat}
    (hl : ∀ i, live (.inl i) ↔ i < n) (hr : ∀ j, live (.inr j) ↔ j < m)
    (ha : ∀ i < n, size (.inl i) = a) (hb : ∀ j < m, size (.inr j) = b) :
    SizeCounts live size header (header + (a * n + b * m)) := by
  refine ⟨(Finset.range n).disjSum (Finset.range m), fun block => ?_, ?_⟩
  · cases block with
    | inl i => rw [Finset.inl_mem_disjSum, Finset.mem_range, hl]
    | inr j => rw [Finset.inr_mem_disjSum, Finset.mem_range, hr]
  · have hsuml : ∀ i ∈ Finset.range n, size (.inl i) = a :=
      fun i hi => ha i (Finset.mem_range.mp hi)
    have hsumr : ∀ j ∈ Finset.range m, size (.inr j) = b :=
      fun j hj => hb j (Finset.mem_range.mp hj)
    rw [Finset.sum_disjSum, Finset.sum_const_nat hsuml, Finset.sum_const_nat hsumr,
      Finset.card_range, Finset.card_range, Nat.mul_comm n, Nat.mul_comm m]

namespace Trie

/-- Some key leads to the node. -/
def Live (t : Trie Nat K C) (n : Nat) : Prop := ∃ u, t.node t.root u = some n

theorem live_iff_reach {t : Trie Nat K C} {n : Nat} :
    t.Live n ↔ Reach (fun n => t.root = some n)
      (fun m n => ∃ c k, t.kid m c = some k ∧ t.edge k = some n) n := by
  constructor
  · rintro ⟨u, hu⟩
    induction u using List.reverseRecOn generalizing n with
    | nil => exact .root (by simpa using hu)
    | append_singleton u c ih =>
      rw [node_snoc] at hu
      obtain ⟨m, hm, hu⟩ := Option.bind_eq_some_iff.mp hu
      obtain ⟨k, hk, he⟩ := Option.bind_eq_some_iff.mp hu
      exact .step (ih hm) ⟨c, k, hk, he⟩
  · intro h
    induction h with
    | root here => exact ⟨[], by simpa using here⟩
    | step _ next ih =>
      obtain ⟨u, hu⟩ := ih
      obtain ⟨c, k, hk, he⟩ := next
      exact ⟨u ++ [c], by simp [node_snoc, hu, hk, he]⟩

/-- Nodes hung up, each under a key shorter than depth that led nowhere; the
next one is always the first that is not in use. -/
structure Grows (t : Trie Nat K C) (len depth : Nat) (t' : Trie Nat K C) (len' : Nat) : Prop where
  le : len ≤ len'
  old : ∀ v n, t'.node t'.root v = some n →
    t.node t.root v = some n ∨ (len ≤ n ∧ n < len') ∧ v.length < depth
  kept : ∀ v n, t.node t.root v = some n → t'.node t'.root v = some n
  new : ∀ n, len ≤ n → n < len' → t'.Live n

variable {t t₁ t' : Trie Nat K C} {len len₁ len' depth : Nat} {added : List (List C)} {w : List C}

/-- Where all keys lead where they led, nothing is hung up. -/
theorem Grows.same (h : ∀ v, t'.node t'.root v = t.node t.root v) : t.Grows len depth t' len where
  le := Nat.le_refl len
  old := fun v _ hn => Or.inl (h v ▸ hn)
  kept := fun v _ hn => (h v).trans hn
  new := fun _ hle hlt => absurd hlt (Nat.not_lt_of_le hle)

theorem Grows.trans (h : t.Grows len depth t₁ len₁) (h' : t₁.Grows len₁ depth t' len') :
    t.Grows len depth t' len' where
  le := Nat.le_trans h.le h'.le
  old := by
    intro v n hn
    have hle := h.le
    have hle' := h'.le
    rcases h'.old v n hn with hn | ⟨hn, hv⟩
    · rcases h.old v n hn with hn | ⟨hn, hv⟩
      · exact Or.inl hn
      · exact Or.inr ⟨by omega, hv⟩
    · exact Or.inr ⟨by omega, hv⟩
  kept := fun v n hn => h'.kept v n (h.kept v n hn)
  new := by
    intro n hle hlt
    by_cases hn : n < len₁
    · obtain ⟨v, hv⟩ := h.new n hle hn
      exact ⟨v, h'.kept v n hv⟩
    · exact h'.new n (Nat.le_of_not_lt hn) hlt

/-- What adding keys keeps: nodes under prefixes of the keys only, and every
node live exactly as long as no key was added twice. -/
structure Keeps (t : Trie Nat K C) (len depth : Nat) (added : List (List C)) : Prop where
  bound : ∀ v n, t.node t.root v = some n → n < len ∧ v.length ≤ depth
  ends : ∀ v, v.length = depth → ((∃ n, t.node t.root v = some n) ↔ v ∈ added)
  live : (∀ n < len, t.Live n) ↔ added.Nodup

theorem keeps_nil (hroot : t.root = none) : t.Keeps 0 depth [] := by
  have hnone : ∀ v n, t.node t.root v ≠ some n := by
    intro v n hn
    rw [hroot, node_none] at hn
    cases hn
  refine ⟨fun v n hn => absurd hn (hnone v n), fun v _ => ?_, by simp⟩
  constructor
  · rintro ⟨n, hn⟩
    exact absurd hn (hnone v n)
  · intro hin
    cases hin

section
variable [DecidableEq K] {key : Nat → List C} {s : Slot K} {u : List C} {m : Nat}

/-- Where all keys lead once a blank node is hung up at the slot of u. -/
theorem attach_node_blank (h : t.Ok key) (ha : t.At s u) (hm : t.Blank m) {v : List C} {n : Nat} :
    (t.attach s m).node (t.attach s m).root v = some n ↔
      v = u ∧ n = m ∨ ¬ u <+: v ∧ t.node t.root v = some n := by
  by_cases hp : u <+: v
  · obtain ⟨x, rfl⟩ := hp
    rw [node_append, attach_node_self h ha]
    cases x with
    | nil => simp [eq_comm]
    | cons c x =>
      have hnone : (t.attach s m).node (some m) (c :: x) = none := by
        simp only [node]
        split
        · rfl
        · rename_i k hk
          rw [attach_edge_blank h ha hm hk, node_none]
      simp [hnone]
  · have hne : v ≠ u := fun he => hp (he ▸ List.prefix_rfl)
    rw [attach_node h ha hp]
    simp [hp, hne]

theorem Grows.attach (h : t.Ok key) (ha : t.At s u) (hm : t.Blank len) (hnull : t.read s = none)
    (hu : u.length < depth) : t.Grows len depth (t.attach s len) (len + 1) where
  le := Nat.le_succ len
  old := by
    intro v n hn
    rcases (attach_node_blank h ha hm).mp hn with ⟨rfl, rfl⟩ | ⟨-, hn⟩
    · exact Or.inr ⟨by omega, hu⟩
    · exact Or.inl hn
  kept := by
    intro v n hn
    refine (attach_node_blank h ha hm).mpr (Or.inr ⟨?_, hn⟩)
    rintro ⟨x, rfl⟩
    rw [node_append, ha.node, hnull, node_none] at hn
    cases hn
  new := by
    intro n hle hlt
    obtain rfl : n = len := by omega
    exact ⟨u, attach_node_self h ha⟩

/-- A key added: the way to it is made, and then a new node is hung up at its
end, in place of what was there. -/
def Extends (t : Trie Nat K C) (len : Nat) (w : List C) (t' : Trie Nat K C) (len' : Nat) : Prop :=
  ∃ t₁ len₁ s key, t.Grows len w.length t₁ len₁ ∧ t₁.Ok key ∧ t₁.At s w ∧ t₁.Blank len₁ ∧
    t' = t₁.attach s len₁ ∧ len' = len₁ + 1

theorem Extends.attach (h : t.Ok key) (ha : t.At s w) (hm : t.Blank len) :
    t.Extends len w (t.attach s len) (len + 1) :=
  ⟨t, len, s, key, .same (fun _ => rfl), h, ha, hm, rfl, rfl⟩

theorem Grows.extends (h : t.Grows len w.length t₁ len₁) (h' : t₁.Extends len₁ w t' len') :
    t.Extends len w t' len' := by
  obtain ⟨t₂, len₂, s, key, hgrow, hrest⟩ := h'
  exact ⟨t₂, len₂, s, key, h.trans hgrow, hrest⟩

theorem Extends.lt (hext : t.Extends len w t' len') : len < len' := by
  obtain ⟨t₁, len₁, s, key, hgrow, -, -, -, -, rfl⟩ := hext
  exact Nat.lt_succ_of_le hgrow.le

/-- Only a node where the key ended before is lost. -/
theorem Extends.live_old (h : t.Keeps len depth added) (hext : t.Extends len w t' len')
    (hw : w.length = depth) {n : Nat} (hn : n < len) :
    t'.Live n ↔ ∃ v, v ≠ w ∧ t.node t.root v = some n := by
  obtain ⟨t₁, len₁, s, key, hgrow, hok, ha, hm, rfl, rfl⟩ := hext
  have hle := hgrow.le
  constructor
  · rintro ⟨v, hv⟩
    rcases (attach_node_blank hok ha hm).mp hv with ⟨-, rfl⟩ | ⟨hp, hv⟩
    · omega
    · refine ⟨v, fun he => hp (he ▸ List.prefix_rfl), ?_⟩
      rcases hgrow.old v n hv with hv | ⟨hv, -⟩
      · exact hv
      · omega
  · rintro ⟨v, hne, hv⟩
    refine ⟨v, (attach_node_blank hok ha hm).mpr (Or.inr ⟨fun hp => ?_, hgrow.kept v n hv⟩)⟩
    have hlen := (h.bound v n hv).2
    exact hne (hp.eq_of_length_le (by omega)).symm

theorem Extends.live_new (h : t.Keeps len depth added) (hext : t.Extends len w t' len') {n : Nat}
    (hle : len ≤ n) (hn : n < len') : t'.Live n := by
  obtain ⟨t₁, len₁, s, key, hgrow, hok, ha, hm, rfl, rfl⟩ := hext
  rcases Nat.lt_succ_iff_lt_or_eq.mp hn with hn | rfl
  · obtain ⟨v, hv⟩ := hgrow.new n hle hn
    refine ⟨v, (attach_node_blank hok ha hm).mpr (Or.inr ⟨fun hp => ?_, hv⟩)⟩
    rcases hgrow.old v n hv with hv | ⟨-, hv⟩
    · exact absurd (h.bound v n hv).1 (Nat.not_lt_of_le hle)
    · exact absurd hp.length_le (Nat.not_le_of_lt hv)
  · exact ⟨w, (attach_node_blank hok ha hm).mpr (Or.inl ⟨rfl, rfl⟩)⟩

theorem Extends.live_iff (h : t.Keeps len depth added) (hext : t.Extends len w t' len')
    (hw : w.length = depth) :
    (∀ n < len', t'.Live n) ↔ w ∉ added ∧ ∀ n < len, t.Live n := by
  have hlt := hext.lt
  constructor
  · intro hall
    have hback : ∀ n < len, ∃ v, v ≠ w ∧ t.node t.root v = some n :=
      fun n hn => (hext.live_old h hw hn).mp (hall n (Nat.lt_trans hn hlt))
    refine ⟨fun hin => ?_, fun n hn => ?_⟩
    · obtain ⟨n, hn⟩ := (h.ends w hw).mpr hin
      obtain ⟨v, hne, hv⟩ := hback n (h.bound w n hn).1
      obtain ⟨t₁, len₁, s, key, hgrow, hok, -⟩ := hext
      apply hne
      rw [← hok.node (hgrow.kept v n hv), hok.node (hgrow.kept w n hn)]
    · obtain ⟨v, -, hv⟩ := hback n hn
      exact ⟨v, hv⟩
  · rintro ⟨hout, hall⟩ n hn
    by_cases hnew : len ≤ n
    · exact hext.live_new h hnew hn
    · obtain ⟨v, hv⟩ := hall n (Nat.lt_of_not_le hnew)
      apply (hext.live_old h hw (Nat.lt_of_not_le hnew)).mpr
      refine ⟨v, fun he => hout ?_, hv⟩
      rw [he] at hv
      exact (h.ends w hw).mp ⟨n, hv⟩

theorem Keeps.extend (h : t.Keeps len depth added) (hext : t.Extends len w t' len')
    (hw : w.length = depth) : t'.Keeps len' depth (added ++ [w]) := by
  have hlive := hext.live_iff h hw
  obtain ⟨t₁, len₁, s, key, hgrow, hok, ha, hm, rfl, rfl⟩ := hext
  have hle := hgrow.le
  have hnode {v : List C} {n : Nat} := attach_node_blank (v := v) (n := n) hok ha hm
  constructor
  case bound =>
    intro v n hn
    rcases hnode.mp hn with ⟨rfl, rfl⟩ | ⟨-, hn⟩
    · exact ⟨Nat.lt_succ_self _, Nat.le_of_eq hw⟩
    · rcases hgrow.old v n hn with hn | ⟨hn, hv⟩
      · have hbound := h.bound v n hn
        omega
      · omega
  case ends =>
    intro v hv
    rw [List.mem_append, List.mem_singleton, ← h.ends v hv]
    constructor
    · rintro ⟨n, hn⟩
      rcases hnode.mp hn with ⟨he, -⟩ | ⟨-, hn⟩
      · exact Or.inr he
      · rcases hgrow.old v n hn with hn | ⟨-, hlt⟩
        · exact Or.inl ⟨n, hn⟩
        · omega
    · intro hin
      by_cases he : v = w
      · exact ⟨len₁, hnode.mpr (Or.inl ⟨he, rfl⟩)⟩
      · obtain ⟨n, hn⟩ := hin.resolve_right he
        refine ⟨n, hnode.mpr (Or.inr ⟨fun hp => he ?_, hgrow.kept v n hn⟩)⟩
        exact (hp.eq_of_length_le (by omega)).symm
  case live =>
    rw [hlive, List.nodup_append_comm, List.singleton_append, List.nodup_cons, h.live]

theorem Extends.ok (hext : t.Extends len w t' len') :
    ∃ key, t'.Ok key := by
  obtain ⟨t₁, len₁, s, key, -, hok, ha, hm, rfl, -⟩ := hext
  exact ⟨_, attach_ok hok ha hm⟩

end

end Trie

end Mepl.Base
