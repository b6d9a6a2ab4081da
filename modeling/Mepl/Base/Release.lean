import Mathlib.Data.List.Nodup
import Mathlib.Order.Interval.Finset.Nat
import Mepl.Base.Reach

namespace Mepl.Base

variable {N K C B : Type}

/-- The kids of a node in the order they are gone through, and the blocks that
are given back behind every kid and with every node. -/
structure Release (N K B : Type) where
  order : N → List K
  ofKid : K → List B
  ofNode : N → List B
  /-- The block a kid is in. -/
  holder : K → B
  kid_nodup : ∀ k, (ofKid k).Nodup
  node_nodup : ∀ n, (ofNode n).Nodup
  kid_owner : ∀ k k' b, b ∈ ofKid k → b ∈ ofKid k' → k = k'
  node_owner : ∀ n n' b, b ∈ ofNode n → b ∈ ofNode n' → n = n'
  apart : ∀ k n b, b ∈ ofKid k → b ∉ ofNode n
  held : ∀ n k, k ∈ order n → holder k ∈ ofKid k ∨ holder k ∈ ofNode n

/-- The block goes with the node or with one of its kids. -/
def Release.Of (w : Release N K B) (b : B) (n : N) : Prop :=
  b ∈ w.ofNode n ∨ ∃ k ∈ w.order n, b ∈ w.ofKid k

namespace Trie

/-- Every kid of a node is gone through once. -/
structure Orders (t : Trie N K C) (w : Release N K B) : Prop where
  kids : ∀ n k, k ∈ w.order n ↔ ∃ c, t.kid n c = some k
  nodup : ∀ n, (w.order n).Nodup

/-- What is given back from np on, as deep as d. -/
def below (t : Trie N K C) (w : Release N K B) : Nat → Option N → List B
  | 0, _ => []
  | _ + 1, none => []
  | d + 1, some n =>
    (w.order n).flatMap (fun k => t.below w d (t.edge k) ++ w.ofKid k) ++ w.ofNode n

/-- What is given back at a kid. -/
def atKid (t : Trie N K C) (w : Release N K B) (d : Nat) (k : K) : List B :=
  t.below w d (t.edge k) ++ w.ofKid k

section
variable {t t' t₁ : Trie N K C} {w : Release N K B} {key : N → List C} {np : Option N} {n m : N}
  {d : Nat} {b : B} {k : K}

@[simp] theorem below_none : t.below w d none = [] := by
  cases d <;> rfl

theorem below_some : t.below w (d + 1) (some n) =
    (w.order n).flatMap (t.atKid w d) ++ w.ofNode n := rfl

theorem Ok.node_from (h : t.Ok key) {u : List C} (hn : t.node (some m) u = some n) :
    key n = key m ++ u := by
  induction u generalizing m with
  | nil =>
    cases hn
    exact (List.append_nil _).symm
  | cons c u ih =>
    rw [Trie.node] at hn
    split at hn
    · cases hn
    · rename_i k hk
      cases he : t.edge k with
      | none => simp [he, node_none] at hn
      | some m' =>
        rw [he] at hn
        rw [ih hn, h.step m c k m' hk he, List.append_assoc, List.singleton_append]

theorem Orders.of_owner (ho : t.Orders w) (h : t.Ok key) (hn : w.Of b n) (hm : w.Of b m) :
    n = m := by
  rcases hn with hn | ⟨k, hk, hn⟩ <;> rcases hm with hm | ⟨j, hj, hm⟩
  · exact w.node_owner n m b hn hm
  · exact absurd hn (w.apart j n b hm)
  · exact absurd hm (w.apart k m b hn)
  · obtain rfl := w.kid_owner k j b hn hm
    obtain ⟨c, hc⟩ := (ho.kids n k).mp hk
    obtain ⟨c', hc'⟩ := (ho.kids m k).mp hj
    exact (h.place n c m c' k hc hc').1

theorem mem_below (ho : t.Orders w) : b ∈ t.below w d np ↔
    ∃ (u : List C) (n : N), u.length < d ∧ t.node np u = some n ∧ w.Of b n := by
  induction d generalizing np with
  | zero =>
    refine ⟨fun hb => absurd hb List.not_mem_nil, ?_⟩
    rintro ⟨u, n, hu, -⟩
    exact absurd hu (Nat.not_lt_zero _)
  | succ d ih =>
    cases np with
    | none => simp [node_none]
    | some m =>
      rw [below_some, List.mem_append, List.mem_flatMap]
      simp only [atKid, List.mem_append, ih]
      constructor
      · rintro (⟨k, hk, ⟨u, n, hu, hn, hb⟩ | hb⟩ | hb)
        · obtain ⟨c, hc⟩ := (ho.kids m k).mp hk
          refine ⟨c :: u, n, Nat.succ_lt_succ hu, ?_, hb⟩
          simpa only [node, hc] using hn
        · exact ⟨[], m, Nat.succ_pos d, node_nil _ _, Or.inr ⟨k, hk, hb⟩⟩
        · exact ⟨[], m, Nat.succ_pos d, node_nil _ _, Or.inl hb⟩
      · rintro ⟨u, n, hu, hn, hb⟩
        cases u with
        | nil =>
          obtain rfl : m = n := Option.some.inj ((node_nil _ _).symm.trans hn)
          rcases hb with hb | ⟨k, hk, hb⟩
          · exact Or.inr hb
          · exact Or.inl ⟨k, hk, Or.inr hb⟩
        | cons c u =>
          simp only [node] at hn
          split at hn
          · cases hn
          · rename_i k hk
            have hkid := (ho.kids m k).mpr ⟨c, hk⟩
            exact Or.inl ⟨k, hkid, Or.inl ⟨u, n, Nat.lt_of_succ_lt_succ hu, hn, hb⟩⟩

/-- The blocks below a kid go with nodes whose keys pass it. -/
theorem below_key (ho : t.Orders w) (h : t.Ok key) {c : C} (hk : t.kid n c = some k)
    (hb : b ∈ t.below w d (t.edge k)) : ∃ m u, w.Of b m ∧ key m = key n ++ c :: u := by
  obtain ⟨u, m, -, hm, hb⟩ := (mem_below ho).mp hb
  refine ⟨m, u, hb, ?_⟩
  cases he : t.edge k with
  | none =>
    rw [he, node_none] at hm
    cases hm
  | some n' =>
    rw [he] at hm
    rw [h.node_from hm, h.step n c k n' hk he, List.append_assoc, List.singleton_append]

/-- Nothing is given back twice. -/
theorem below_nodup (ho : t.Orders w) (h : t.Ok key) (d : Nat) (np : Option N) :
    (t.below w d np).Nodup := by
  induction d generalizing np with
  | zero => exact List.nodup_nil
  | succ d ih =>
    cases np with
    | none => exact List.nodup_nil
    | some n =>
      -- a block below a kid of n goes with a node whose key is longer than that of n
      have hdeep : ∀ {k c}, t.kid n c = some k → ∀ b ∈ t.below w d (t.edge k), ¬ w.Of b n := by
        intro k c hk b hb hn
        obtain ⟨m, u, hm, hkey⟩ := below_key ho h hk hb
        obtain rfl := ho.of_owner h hn hm
        simp at hkey
      rw [below_some, List.nodup_append']
      refine ⟨List.nodup_flatMap.mpr ⟨fun k hk => ?_, ?_⟩, w.node_nodup n, ?_⟩
      · obtain ⟨c, hc⟩ := (ho.kids n k).mp hk
        rw [atKid, List.nodup_append']
        exact ⟨ih _, w.kid_nodup k, fun b hb hbk => hdeep hc b hb (Or.inr ⟨k, hk, hbk⟩)⟩
      · refine (ho.nodup n).imp_of_mem (fun {j k} hj hk hne => ?_)
        obtain ⟨c, hc⟩ := (ho.kids n j).mp hj
        obtain ⟨c', hc'⟩ := (ho.kids n k).mp hk
        intro b hbj hbk
        rcases List.mem_append.mp hbj with hbj | hbj <;>
          rcases List.mem_append.mp hbk with hbk | hbk
        · obtain ⟨m, u, hm, hkey⟩ := below_key ho h hc hbj
          obtain ⟨m', u', hm', hkey'⟩ := below_key ho h hc' hbk
          obtain rfl := ho.of_owner h hm hm'
          rw [hkey, List.append_cancel_left_eq, List.cons.injEq] at hkey'
          obtain ⟨rfl, -⟩ := hkey'
          rw [hc] at hc'
          exact hne (Option.some.inj hc')
        · exact hdeep hc b hbj (Or.inr ⟨k, hk, hbk⟩)
        · exact hdeep hc' b hbk (Or.inr ⟨j, hj, hbj⟩)
        · exact hne (w.kid_owner j k b hbj hbk)
      · intro b hb hbn
        obtain ⟨k, hk, hb⟩ := List.mem_flatMap.mp hb
        obtain ⟨c, hc⟩ := (ho.kids n k).mp hk
        rcases List.mem_append.mp hb with hb | hb
        · exact hdeep hc b hb (Or.inl hbn)
        · exact w.apart k n b hb hbn

/-- A block that goes with no node is not among them, and may come last. -/
theorem below_then (ho : t.Orders w) (h : t.Ok key) (hb : ∀ n, ¬ w.Of b n) (d : Nat)
    (np : Option N) : b ∉ t.below w d np ∧ (t.below w d np ++ [b]).Nodup := by
  have hout : b ∉ t.below w d np := by
    rw [mem_below ho]
    rintro ⟨u, n, -, -, hof⟩
    exact hb n hof
  refine ⟨hout, List.nodup_append'.mpr ⟨below_nodup ho h d np, List.nodup_singleton b, ?_⟩⟩
  exact List.disjoint_singleton.mpr hout

/-- What is given back depends only on the kids in the blocks given back. -/
theorem below_congr (hedge : ∀ k, w.holder k ∈ t.below w d np → t'.edge k = t.edge k) :
    t'.below w d np = t.below w d np := by
  induction d generalizing np with
  | zero => rfl
  | succ d ih =>
    cases np with
    | none => rfl
    | some n =>
      rw [below_some] at hedge
      rw [below_some, below_some]
      congr 1
      refine List.flatMap_congr (fun k hk => ?_)
      have hmem : ∀ b ∈ t.atKid w d k, b ∈ (w.order n).flatMap (t.atKid w d) :=
        fun b hb => List.mem_flatMap.mpr ⟨k, hk, hb⟩
      have he : t'.edge k = t.edge k := by
        refine hedge k (List.mem_append.mpr ?_)
        rcases w.held n k hk with hk' | hk'
        · exact Or.inl (hmem _ (List.mem_append_right _ hk'))
        · exact Or.inr hk'
      rw [atKid, atKid, he, ih]
      exact fun j hj => hedge j (List.mem_append_left _ (hmem _ (List.mem_append_left _ hj)))

/-- A call that gave back blocks: slots outside of them are as before, but for
the ones it was to empty. -/
structure Cut (t : Trie N K C) (w : Release N K B) (blocks : List B) (slots : List (Slot K))
    (t' : Trie N K C) : Prop where
  kid : t'.kid = t.kid
  less : ∀ s n, t'.read s = some n → t.read s = some n
  root : .root ∉ slots → t'.root = t.root
  edge : ∀ k, .edge k ∉ slots → w.holder k ∉ blocks → t'.edge k = t.edge k

variable {blocks blocks' : List B} {slots slots' : List (Slot K)}

theorem Cut.refl (t : Trie N K C) (w : Release N K B) : t.Cut w [] [] t :=
  ⟨rfl, fun _ _ h => h, fun _ => rfl, fun _ _ _ => rfl⟩

theorem Cut.trans (h : t.Cut w blocks slots t₁) (h' : t₁.Cut w blocks' slots' t') :
    t.Cut w (blocks ++ blocks') (slots ++ slots') t' where
  kid := h'.kid.trans h.kid
  less := fun s n hn => h.less s n (h'.less s n hn)
  root := by
    intro hs
    rw [List.mem_append, not_or] at hs
    exact (h'.root hs.2).trans (h.root hs.1)
  edge := by
    intro k hs hb
    rw [List.mem_append, not_or] at hs hb
    exact (h'.edge k hs.2 hb.2).trans (h.edge k hs.1 hb.1)

/-- Only the slots that are in blocks left count. -/
theorem Cut.weaken (h : t.Cut w blocks slots t') (hblocks : blocks ⊆ blocks')
    (hslots : ∀ s ∈ slots, s ∈ slots' ∨ ∃ k, s = .edge k ∧ w.holder k ∈ blocks') :
    t.Cut w blocks' slots' t' where
  kid := h.kid
  less := h.less
  root := by
    intro hr
    apply h.root
    intro hin
    rcases hslots _ hin with hin | ⟨k, he, -⟩
    · exact hr hin
    · cases he
  edge := by
    intro k hk hb
    refine h.edge k (fun hin => ?_) (fun hin => hb (hblocks hin))
    rcases hslots _ hin with hin | ⟨j, he, hj⟩
    · exact hk hin
    · cases he
      exact hb hj

/-- No way down from np is d long. -/
def Shallow (t : Trie N K C) (d : Nat) (np : Option N) : Prop :=
  ∀ u n, t.node np u = some n → u.length < d

theorem Shallow.kid (h : t.Shallow (d + 1) (some n)) {c : C} (hk : t.kid n c = some k) :
    t.Shallow d (t.edge k) := by
  intro u m hm
  refine Nat.lt_of_succ_lt_succ (h (c :: u) m ?_)
  simpa only [node, hk] using hm

theorem Cut.node (h : t.Cut w blocks slots t') {u : List C} (hn : t'.node np u = some n) :
    t.node np u = some n := by
  induction u generalizing np with
  | nil => simpa using hn
  | cons c u ih =>
    cases np with
    | none =>
      rw [node_none] at hn
      cases hn
    | some m =>
      rw [Trie.node, h.kid] at hn
      rw [Trie.node]
      cases hk : t.kid m c with
      | none => simp [hk] at hn
      | some k =>
        simp only [hk] at hn ⊢
        cases he : t'.edge k with
        | none =>
          rw [he, node_none] at hn
          cases hn
        | some m' =>
          have hold : t.edge k = some m' := h.less (.edge k) m' he
          rw [he] at hn
          rw [hold]
          exact ih hn

theorem Shallow.cut (hs : t.Shallow d (t.edge k)) (h : t.Cut w blocks slots t') :
    t'.Shallow d (t'.edge k) := by
  intro u n hn
  cases he : t'.edge k with
  | none =>
    rw [he, node_none] at hn
    cases hn
  | some m =>
    have hold : t.edge k = some m := h.less (.edge k) m he
    rw [he] at hn
    exact hs u n (hold ▸ h.node hn)

theorem Shallow.pos (h : t.Shallow d (some n)) : 0 < d :=
  h [] n (node_nil t (some n))

/-- Kids outside of what was given back are as they were. -/
theorem Cut.later (h : t.Cut w blocks slots t') {ks : List K}
    (hheld : ∀ j ∈ ks, w.holder j ∉ blocks)
    (hbelow : ∀ j ∈ ks, ∀ b ∈ t.below w d (t.edge j), b ∉ blocks)
    (hslots : ∀ k, .edge k ∈ slots → k ∉ ks ∧ ∀ j ∈ ks, w.holder k ∉ t.below w d (t.edge j)) :
    ∀ j ∈ ks, t'.atKid w d j = t.atKid w d j := by
  intro j hj
  have he : t'.edge j = t.edge j := by
    refine h.edge j (fun hin => ?_) (hheld j hj)
    exact (hslots j hin).1 hj
  rw [atKid, atKid, he, below_congr]
  intro i hi
  refine h.edge i (fun hin => ?_) (hbelow j hj _ hi)
  exact (hslots i hin).2 j hj hi

/-- Kids that are gone through later are not touched when one is emptied. -/
theorem Cut.later_kids (h : t.Cut w (t.atKid w d k) [.edge k] t') {ks : List K}
    (hks : ∀ j ∈ k :: ks, j ∈ w.order n) (hk : k ∉ ks)
    (hnodup : ((k :: ks).flatMap (t.atKid w d) ++ w.ofNode n).Nodup) :
    ∀ j ∈ ks, t'.atKid w d j = t.atKid w d j := by
  rw [List.flatMap_cons, List.append_assoc, List.nodup_append'] at hnodup
  obtain ⟨-, hrest, hout⟩ := hnodup
  have hmem : ∀ j ∈ ks, ∀ b ∈ t.atKid w d j, b ∈ ks.flatMap (t.atKid w d) :=
    fun j hj b hb => List.mem_flatMap.mpr ⟨j, hj, hb⟩
  refine h.later (fun j hj hin => ?_) (fun j hj b hb hin => ?_) (fun i hi => ?_)
  · rcases w.held n j (hks j (List.mem_cons_of_mem k hj)) with hj' | hj'
    · exact hout hin (List.mem_append_left _ (hmem j hj _ (List.mem_append_right _ hj')))
    · exact hout hin (List.mem_append_right _ hj')
  · exact hout hin (List.mem_append_left _ (hmem j hj b (List.mem_append_left _ hb)))
  · cases List.mem_singleton.mp hi
    refine ⟨hk, fun j hj hin => ?_⟩
    -- the block that k is in is given back with k or with n
    have hin' := hmem j hj _ (List.mem_append_left _ hin)
    rcases w.held n k (hks k List.mem_cons_self) with hk' | hk'
    · exact hout (List.mem_append_right _ hk') (List.mem_append_left _ hin')
    · exact (List.nodup_append'.mp hrest).2.2 hin' hk'

end

/-- From the root, what is given back is what goes with the live nodes. -/
theorem mem_below_root {t : Trie Nat K C} {w : Release Nat K B} {d : Nat} {b : B}
    (ho : t.Orders w) (hdeep : t.Shallow d t.root) :
    b ∈ t.below w d t.root ↔ ∃ n, t.Live n ∧ w.Of b n := by
  rw [mem_below ho]
  constructor
  · rintro ⟨u, n, -, hn, hb⟩
    exact ⟨n, ⟨u, hn⟩, hb⟩
  · rintro ⟨n, ⟨u, hn⟩, hb⟩
    exact ⟨u, n, hdeep u n hn, hn, hb⟩

/-- All nodes are live but for one for every key that was there already when
it was added. -/
def Counts [DecidableEq C] (t : Trie Nat K C) (len : Nat) (added : List (List C)) : Prop :=
  ∃ live : Finset Nat, (∀ n, n ∈ live ↔ t.Live n) ∧
    live.card + added.length = len + added.toFinset.card

theorem card_map_to_finset {α β : Type} [DecidableEq α] [DecidableEq β] {f : α → β}
    (hf : Function.Injective f) (l : List α) : (l.map f).toFinset.card = l.toFinset.card := by
  have himage : (l.map f).toFinset = l.toFinset.image f := by
    ext b
    simp
  rw [himage, Finset.card_image_of_injective _ hf]

section
variable {t t' : Trie Nat K C} {len len' depth n : Nat} {added : List (List C)}
  {w : List C}

theorem counts_nil [DecidableEq C] (hroot : t.root = none) : t.Counts 0 [] := by
  refine ⟨∅, fun n => iff_of_false (Finset.notMem_empty n) ?_, rfl⟩
  rintro ⟨u, hu⟩
  rw [hroot, node_none] at hu
  cases hu

variable [DecidableEq K]

theorem Extends.live_iff_old (h : t.Keeps len depth added) (hext : t.Extends len w t' len')
    (hw : w.length = depth) (hn : n < len) :
    t'.Live n ↔ t.Live n ∧ t.node t.root w ≠ some n := by
  rw [hext.live_old h hw hn]
  obtain ⟨t₁, len₁, s, key, hgrow, hok, -⟩ := hext
  constructor
  · rintro ⟨v, hne, hv⟩
    refine ⟨⟨v, hv⟩, fun hold => hne ?_⟩
    rw [← hok.node (hgrow.kept v n hv), hok.node (hgrow.kept w n hold)]
  · rintro ⟨⟨v, hv⟩, hne⟩
    exact ⟨v, fun he => hne (he ▸ hv), hv⟩

theorem Counts.extend [DecidableEq C] (h : t.Counts len added) (hkeeps : t.Keeps len depth added)
    (hext : t.Extends len w t' len') (hw : w.length = depth) :
    t'.Counts len' (added ++ [w]) := by
  obtain ⟨live, hlive, hcard⟩ := h
  have hlt := hext.lt
  have hbelow : ∀ n ∈ live, n < len := by
    intro n hn
    obtain ⟨v, hv⟩ := (hlive n).mp hn
    exact (hkeeps.bound v n hv).1
  have hmem : ∀ old : Finset Nat, (∀ n, n ∈ old ↔ t.Live n ∧ t.node t.root w ≠ some n) →
      ∀ n, n ∈ old ∪ Finset.Ico len len' ↔ t'.Live n := by
    intro old hold n
    rw [Finset.mem_union, Finset.mem_Ico, hold]
    by_cases hn : n < len
    · rw [hext.live_iff_old hkeeps hw hn]
      exact ⟨fun hin => hin.resolve_right (fun hin => by omega), Or.inl⟩
    · constructor
      · rintro (⟨⟨v, hv⟩, -⟩ | hin)
        · exact absurd (hkeeps.bound v n hv).1 hn
        · exact hext.live_new hkeeps hin.1 hin.2
      · rintro ⟨v, hv⟩
        have hbound := ((hkeeps.extend hext hw).bound v n hv).1
        exact Or.inr ⟨Nat.le_of_not_lt hn, hbound⟩
  have hunion : ∀ old ⊆ live, (old ∪ Finset.Ico len len').card = old.card + (len' - len) := by
    intro old hold
    rw [Finset.card_union_of_disjoint, Nat.card_Ico]
    refine Finset.disjoint_left.mpr (fun n hn hin => ?_)
    exact absurd (hbelow n (hold hn)) (Nat.not_lt_of_le (Finset.mem_Ico.mp hin).1)
  have hset : (added ++ [w]).toFinset = Insert.insert w added.toFinset := by
    rw [List.toFinset_append, Finset.union_comm]
    rfl
  cases hold : t.node t.root w with
  | none =>
    have hout : w ∉ added := by
      intro hin
      obtain ⟨n, hn⟩ := (hkeeps.ends w hw).mpr hin
      rw [hold] at hn
      cases hn
    refine ⟨live ∪ Finset.Ico len len', hmem live (fun n => ?_), ?_⟩
    · simp [hlive, hold]
    · rw [hunion live subset_rfl, hset, Finset.card_insert_of_notMem (by simpa using hout),
        List.length_append, List.length_singleton]
      omega
  | some m =>
    have hin : w ∈ added := (hkeeps.ends w hw).mp ⟨m, hold⟩
    have hm : m ∈ live := (hlive m).mpr ⟨w, hold⟩
    refine ⟨live.erase m ∪ Finset.Ico len len', hmem _ (fun n => ?_), ?_⟩
    · simp [hlive, hold, and_comm, eq_comm]
    · have hpos := Finset.card_pos.mpr ⟨m, hm⟩
      rw [hunion _ (Finset.erase_subset m live), hset, Finset.card_erase_of_mem hm,
        Finset.insert_eq_of_mem (by simpa using hin), List.length_append, List.length_singleton]
      omega

end

/-- The kid is one of a node that a key shorter than depth leads to. -/
def Hung (t : Trie N K C) (depth : Nat) (k : K) : Prop :=
  ∃ u n c, u.length < depth ∧ t.node t.root u = some n ∧ t.kid n c = some k

section
variable [DecidableEq K] {t t' : Trie N K C} {key : N → List C} {s : Slot K} {u : List C}
  {n m : N} {c : C} {k j : K} {depth : Nat}

/-- A node hung up at the end of a key as long as depth takes no such kid away. -/
theorem Hung.attach (h : t.Hung depth j) (hok : t.Ok key) (ha : t.At s u) (hu : depth ≤ u.length) :
    (t.attach s m).Hung depth j := by
  obtain ⟨v, n, c, hv, hn, hk⟩ := h
  refine ⟨v, n, c, hv, ?_, hk⟩
  rw [attach_node hok ha (fun hp => ?_), hn]
  have hle := hp.length_le
  omega

theorem Hung.ensure (h : t.Hung depth j) (hok : t.Ok key) (ha : t.At s u)
    (he : t.Ensure s t' n) : t'.Hung depth j := by
  cases he with
  | there found => exact h
  | new null fresh =>
    obtain ⟨v, n', c, hv, hn, hk⟩ := h
    refine ⟨v, n', c, hv, ?_, hk⟩
    rw [attach_node hok ha, hn]
    rintro ⟨x, rfl⟩
    rw [node_append, ha.node, null, node_none] at hn
    cases hn

variable [DecidableEq N] [DecidableEq C]

theorem GetOrSet.node_eq (hg : t.GetOrSet n c t' k) (v : List C) :
    t'.node t'.root v = t.node t.root v := by
  cases hg with
  | there found => rfl
  | new missing fresh => exact insert_node fresh missing _ v

theorem GetOrSet.kid_old (hg : t.GetOrSet n c t' k) {d : C} (hj : t.kid m d = some j) :
    t'.kid m d = some j := by
  cases hg with
  | there found => exact hj
  | new missing fresh =>
    have hne : ¬ (m = n ∧ d = c) := by
      rintro ⟨rfl, rfl⟩
      rw [missing] at hj
      cases hj
    simpa [insert, hne] using hj

theorem GetOrSet.kid_found (hg : t.GetOrSet n c t' k) : t'.kid n c = some k := by
  cases hg with
  | there found => exact found
  | new missing fresh => simp [insert]

theorem Hung.get_or_set (h : t.Hung depth j) (hg : t.GetOrSet n c t' k) : t'.Hung depth j := by
  obtain ⟨v, m, d, hv, hm, hk⟩ := h
  exact ⟨v, m, d, hv, (hg.node_eq v).trans hm, hg.kid_old hk⟩

/-- The kid got or set is one. -/
theorem GetOrSet.hung (hg : t.GetOrSet n c t' k) (hn : t.node t.root u = some n)
    (hu : u.length < depth) : t'.Hung depth k :=
  ⟨u, n, c, hu, (hg.node_eq u).trans hn, hg.kid_found⟩

/-- Keys as long as depth make no kids at their end. -/
theorem Adds.hung {cs : List C} (hadd : t.Adds s cs t') (hok : t.Ok key) (ha : t.At s u)
    (hdepth : u.length + cs.length = depth) (h : ∀ n c j, t.kid n c = some j → t.Hung depth j) :
    ∀ n c j, t'.kid n c = some j → t'.Hung depth j := by
  induction hadd generalizing u key with
  | done fresh =>
    intro n c j hj
    exact (h n c j hj).attach hok ha (Nat.le_of_eq hdepth.symm)
  | @step t t₁ t₂ t' s n c k cs node kid rest ih =>
    rw [List.length_cons] at hdepth
    obtain ⟨key₁, hok₁, hn₁, -⟩ := node.spec hok ha
    obtain ⟨hok₂, ha₂, -⟩ := kid.spec hok₁ hn₁
    refine ih hok₂ ha₂ (by rw [List.length_append, List.length_singleton]; omega) ?_
    have h₁ : ∀ m d j, t₁.kid m d = some j → t₁.Hung depth j := by
      intro m d j hj
      refine Hung.ensure (h m d j ?_) hok ha node
      cases node <;> exact hj
    intro m d j hj
    by_cases hjk : j = k
    · rw [hjk]
      exact kid.hung hn₁ (by omega)
    · refine (h₁ m d j ?_).get_or_set kid
      cases kid with
      | there found => exact hj
      | new missing fresh =>
        simp only [insert] at hj
        split at hj
        · exact absurd (Option.some.inj hj).symm hjk
        · exact hj

end

end Trie

end Mepl.Base
