import Mathlib.Data.List.Induction

namespace Mepl.Base

variable {N K C : Type}

/-- Nodes hold kids under chunks of a key, and a kid may lead to a further node. -/
structure Trie (N K C : Type) where
  root : Option N
  kid : N → C → Option K
  edge : K → Option N

namespace Trie

/-- The node a key leads to from np. -/
def node (t : Trie N K C) : Option N → List C → Option N
  | np, [] => np
  | none, _ :: _ => none
  | some n, c :: cs =>
    match t.kid n c with
    | none => none
    | some k => t.node (t.edge k) cs

/-- There is a kid for every chunk of the key. -/
def has (t : Trie N K C) : Option N → List C → Bool
  | _, [] => true
  | none, _ :: _ => false
  | some n, c :: cs =>
    match t.kid n c with
    | none => false
    | some k => t.has (t.edge k) cs

@[simp] theorem node_nil (t : Trie N K C) (np : Option N) : t.node np [] = np := by
  cases np <;> rfl

theorem node_none (t : Trie N K C) (cs : List C) : t.node none cs = none := by
  cases cs <;> rfl

theorem node_append (t : Trie N K C) (np : Option N) (u v : List C) :
    t.node np (u ++ v) = t.node (t.node np u) v := by
  induction u generalizing np with
  | nil => simp
  | cons c u ih =>
    cases np with
    | none => simp only [List.cons_append, node, node_none]
    | some n =>
      simp only [List.cons_append, node]
      cases t.kid n c with
      | none => simp only [node_none]
      | some k => exact ih (t.edge k)

/-- A key is there when the node for all but its last chunk has that chunk. -/
theorem has_snoc (t : Trie N K C) (np : Option N) (u : List C) (c : C) :
    t.has np (u ++ [c]) = true ↔ ∃ n, t.node np u = some n ∧ (t.kid n c).isSome = true := by
  induction u generalizing np with
  | nil =>
    cases np with
    | none => simp [has]
    | some n => cases h : t.kid n c <;> simp [has, h]
  | cons d u ih =>
    cases np with
    | none => simp [has, node]
    | some n =>
      simp only [List.cons_append, has, node]
      cases t.kid n d with
      | none => simp
      | some k => exact ih (t.edge k)

/-- Every node has one key, and every kid one place. -/
structure Ok (t : Trie N K C) (key : N → List C) : Prop where
  root : ∀ n, t.root = some n → key n = []
  step : ∀ n c k m, t.kid n c = some k → t.edge k = some m → key m = key n ++ [c]
  place : ∀ n c n' c' k, t.kid n c = some k → t.kid n' c' = some k → n = n' ∧ c = c'

theorem Ok.node {t : Trie N K C} {key : N → List C} (h : t.Ok key) {u : List C} {n : N}
    (hn : t.node t.root u = some n) : key n = u := by
  have hfrom : ∀ v m, t.node (some m) v = some n → key n = key m ++ v := by
    intro v
    induction v with
    | nil =>
      intro m hm
      cases hm
      simp
    | cons c v ih =>
      intro m hm
      simp only [Trie.node] at hm
      cases hk : t.kid m c with
      | none => simp [hk] at hm
      | some k =>
        simp only [hk] at hm
        cases he : t.edge k with
        | none => simp [he, node_none] at hm
        | some m' =>
          rw [he] at hm
          rw [ih m' hm, h.step m c k m' hk he]
          simp
  cases hr : t.root with
  | none => simp [hr, node_none] at hn
  | some m =>
    rw [hr] at hn
    simpa [h.root m hr] using hfrom u m hn

section
variable [DecidableEq N] [DecidableEq K] [DecidableEq C]

/-- A new kid k, leading nowhere yet, under c at n. -/
def insert (t : Trie N K C) (n : N) (c : C) (k : K) : Trie N K C where
  root := t.root
  kid := fun n' c' => if n' = n ∧ c' = c then some k else t.kid n' c'
  edge := fun k' => if k' = k then none else t.edge k'

variable {t : Trie N K C} {key : N → List C} {n : N} {c : C} {k : K}

theorem insert_node (hnew : ∀ n c, t.kid n c ≠ some k) (hnone : t.kid n c = none)
    (np : Option N) (u : List C) : (t.insert n c k).node np u = t.node np u := by
  induction u generalizing np with
  | nil => simp
  | cons d u ih =>
    cases np with
    | none => rfl
    | some m =>
      by_cases hm : m = n ∧ d = c
      · obtain ⟨rfl, rfl⟩ := hm
        simp [node, insert, hnone, node_none]
      · simp only [node, insert, hm, ↓reduceIte]
        cases hk : t.kid m d with
        | none => rfl
        | some k' =>
          have hne : k' ≠ k := fun he => hnew m d (he ▸ hk)
          simp only [hne, ↓reduceIte]
          exact ih (t.edge k')

/-- Exactly one key more is there. -/
theorem insert_has (h : t.Ok key) (hnew : ∀ n c, t.kid n c ≠ some k) (hnone : t.kid n c = none)
    {u : List C} (hn : t.node t.root u = some n) (v : List C) :
    (t.insert n c k).has t.root v = true ↔ t.has t.root v = true ∨ v = u ++ [c] := by
  rcases List.eq_nil_or_concat v with rfl | ⟨w, d, rfl⟩
  · simp [has]
  · rw [List.concat_eq_append, has_snoc, has_snoc]
    simp only [insert_node hnew hnone]
    constructor
    · intro hin
      obtain ⟨m, hm, hk⟩ := hin
      by_cases he : m = n ∧ d = c
      · obtain ⟨rfl, rfl⟩ := he
        right
        rw [← h.node hm, h.node hn]
      · left
        simp only [insert, he, ↓reduceIte] at hk
        exact ⟨m, hm, hk⟩
    · intro hin
      rcases hin with ⟨m, hm, hk⟩ | he
      · refine ⟨m, hm, ?_⟩
        simp only [insert]
        split
        · rfl
        · exact hk
      · obtain ⟨rfl, hd⟩ := List.append_inj' he rfl
        cases hd
        exact ⟨n, hn, by simp [insert]⟩

theorem insert_ok (h : t.Ok key) (hnew : ∀ n c, t.kid n c ≠ some k) :
    (t.insert n c k).Ok key where
  root := h.root
  step := by
    intro n' c' k' m hk he
    by_cases hk' : k' = k
    · simp [insert, hk'] at he
    · simp only [insert] at hk he
      rw [if_neg hk'] at he
      split at hk
      · cases hk
        exact absurd rfl hk'
      · exact h.step n' c' k' m hk he
  place := by
    intro n1 c1 n2 c2 k' h1 h2
    simp only [insert] at h1 h2
    split at h1
    · rename_i he1
      cases h1
      split at h2
      · rename_i he2
        exact ⟨he1.1.trans he2.1.symm, he1.2.trans he2.2.symm⟩
      · exact absurd h2 (hnew n2 c2)
    · split at h2
      · cases h2
        exact absurd h1 (hnew n1 c1)
      · exact h.place n1 c1 n2 c2 k' h1 h2

end

/-- A place where a node can be hung up. -/
inductive Slot (K : Type) where
  | root
  | edge (k : K)

def read (t : Trie N K C) : Slot K → Option N
  | .root => t.root
  | .edge k => t.edge k

/-- The slot is the one that the key u leads to. -/
def At (t : Trie N K C) : Slot K → List C → Prop
  | .root, u => u = []
  | .edge k, u => ∃ w c n, u = w ++ [c] ∧ t.node t.root w = some n ∧ t.kid n c = some k

theorem node_snoc (t : Trie N K C) (np : Option N) (u : List C) (c : C) :
    t.node np (u ++ [c]) = (t.node np u).bind (fun n => (t.kid n c).bind t.edge) := by
  rw [node_append]
  cases t.node np u with
  | none => rfl
  | some n => cases hk : t.kid n c <;> simp [node, hk]

theorem At.node {t : Trie N K C} {s : Slot K} {u : List C} (h : t.At s u) :
    t.node t.root u = t.read s := by
  cases s with
  | root =>
    have hu : u = [] := h
    simp [hu, read]
  | edge k =>
    obtain ⟨w, c, n, rfl, hn, hk⟩ := h
    rw [node_snoc, hn]
    simp [hk, read]

theorem At.has {t : Trie N K C} {s : Slot K} {u : List C} (h : t.At s u) :
    t.has t.root u = true := by
  cases s with
  | root =>
    have hu : u = [] := h
    simp [hu, Trie.has]
  | edge k =>
    obtain ⟨w, c, n, rfl, hn, hk⟩ := h
    rw [has_snoc]
    exact ⟨n, hn, by simp [hk]⟩

/-- A node without kids that nothing leads to. -/
structure Fresh (t : Trie N K C) (m : N) : Prop where
  kids : ∀ c, t.kid m c = none
  root : t.root ≠ some m
  edge : ∀ k, t.edge k ≠ some m

/-- A node whose kids lead nowhere, and that nothing leads to. -/
structure Blank (t : Trie N K C) (m : N) : Prop where
  kids : ∀ c k, t.kid m c = some k → t.edge k = none
  root : t.root ≠ some m
  edge : ∀ k, t.edge k ≠ some m

theorem Fresh.blank {t : Trie N K C} {m : N} (h : t.Fresh m) : t.Blank m where
  kids := by
    intro c k hk
    rw [h.kids c] at hk
    cases hk
  root := h.root
  edge := h.edge

theorem Blank.not_node {t : Trie N K C} {m : N} (h : t.Blank m) (v : List C) :
    t.node t.root v ≠ some m := by
  rcases List.eq_nil_or_concat v with rfl | ⟨w, d, rfl⟩
  · rw [node_nil]
    exact h.root
  · rw [List.concat_eq_append, node_snoc]
    intro hn
    obtain ⟨n, -, hn⟩ := Option.bind_eq_some_iff.mp hn
    obtain ⟨k, -, hk⟩ := Option.bind_eq_some_iff.mp hn
    exact h.edge k hk

section
variable [DecidableEq K]

/-- The node m hung up at the slot, in place of what was there. -/
def attach (t : Trie N K C) (s : Slot K) (m : N) : Trie N K C where
  root := match s with
    | .root => some m
    | .edge _ => t.root
  kid := t.kid
  edge := match s with
    | .root => t.edge
    | .edge k => fun k' => if k' = k then some m else t.edge k'

@[simp] theorem read_attach (t : Trie N K C) (s : Slot K) (m : N) :
    (t.attach s m).read s = some m := by
  cases s <;> simp [attach, read]

variable {t : Trie N K C} {key : N → List C} {s : Slot K} {u : List C} {m : N}

/-- Keys that do not pass the slot lead where they led. -/
theorem attach_node (h : t.Ok key) (ha : t.At s u) {v : List C} (hv : ¬ u <+: v) :
    (t.attach s m).node (t.attach s m).root v = t.node t.root v := by
  cases s with
  | root =>
    have hu : u = [] := ha
    exact absurd (hu ▸ List.nil_prefix) hv
  | edge k =>
    obtain ⟨w, c, n, rfl, hn, hk⟩ := ha
    induction v using List.reverseRecOn with
    | nil => simp [attach]
    | append_singleton v d ih =>
      have ihv := ih (fun hp => hv (hp.trans (List.prefix_append v [d])))
      rw [node_snoc, node_snoc, ihv]
      cases hm : t.node t.root v with
      | none => rfl
      | some n' =>
        simp only [Option.bind_some, attach]
        cases hk' : t.kid n' d with
        | none => rfl
        | some k' =>
          have hne : k' ≠ k := by
            intro he
            obtain ⟨rfl, rfl⟩ := h.place n' d n c k (he ▸ hk') hk
            -- then v is the key of n, and the slot is passed
            have hw : v = w := by rw [← h.node hm, h.node hn]
            exact hv (hw ▸ List.prefix_rfl)
          simp [hne]

theorem attach_node_self (h : t.Ok key) (ha : t.At s u) :
    (t.attach s m).node (t.attach s m).root u = some m := by
  have hat := ha
  cases s with
  | root =>
    have hu : u = [] := ha
    simp [hu, attach]
  | edge k =>
    obtain ⟨w, c, n, rfl, hn, hk⟩ := ha
    have hw : ¬ w ++ [c] <+: w := by
      intro hp
      have := hp.length_le
      rw [List.length_append, List.length_singleton] at this
      omega
    rw [node_snoc, attach_node h hat hw, hn]
    simp [attach, hk]

/-- Keys no longer than that of the slot are there as before. -/
theorem attach_has_short (h : t.Ok key) (ha : t.At s u) {v : List C} (hv : v.length ≤ u.length) :
    (t.attach s m).has (t.attach s m).root v = t.has t.root v := by
  rcases List.eq_nil_or_concat v with rfl | ⟨w, d, rfl⟩
  · simp [has]
  · rw [List.concat_eq_append, Bool.eq_iff_iff, has_snoc, has_snoc]
    have hw : ¬ u <+: w := by
      intro hp
      have := hp.length_le
      simp at hv
      omega
    rw [attach_node h ha hw]
    exact Iff.rfl

/-- A node hung up at an empty slot adds no key. -/
theorem attach_has_null (h : t.Ok key) (ha : t.At s u) (hm : t.Fresh m) (hn : t.read s = none)
    (v : List C) : (t.attach s m).has (t.attach s m).root v = t.has t.root v := by
  rcases List.eq_nil_or_concat v with rfl | ⟨w, d, rfl⟩
  · simp [has]
  · rw [List.concat_eq_append, Bool.eq_iff_iff, has_snoc, has_snoc]
    by_cases hp : u <+: w
    · obtain ⟨x, rfl⟩ := hp
      rw [node_append, attach_node_self h ha, node_append, ha.node, hn, node_none]
      cases x with
      | nil => simp [attach, hm.kids]
      | cons c x => simp [node, attach, hm.kids]
    · rw [attach_node h ha hp]
      exact Iff.rfl

/-- The kids of a blank node still lead nowhere after it is hung up. -/
theorem attach_edge_blank (h : t.Ok key) (ha : t.At s u) (hm : t.Blank m) {c : C} {k : K}
    (hk : t.kid m c = some k) : (t.attach s m).edge k = none := by
  have hnone := hm.kids c k hk
  cases s with
  | root => exact hnone
  | edge k0 =>
    obtain ⟨w, d, n, rfl, hn, hk0⟩ := ha
    have hne : k ≠ k0 := by
      intro he
      obtain ⟨rfl, -⟩ := h.place m c n d k hk (he ▸ hk0)
      exact hm.not_node w hn
    simp only [attach, hne, ↓reduceIte, hnone]

theorem attach_ok [DecidableEq N] (h : t.Ok key) (ha : t.At s u) (hm : t.Blank m) :
    (t.attach s m).Ok (fun n => if n = m then u else key n) := by
  constructor
  case root =>
    intro n hn
    cases s with
    | root =>
      cases hn
      simp only [↓reduceIte]
      exact ha
    | edge k =>
      have hne : n ≠ m := fun he => hm.root (he ▸ hn)
      rw [if_neg hne]
      exact h.root n hn
  case step =>
    intro n c k m' hk he
    have hnm : n ≠ m := by
      intro hnm
      rw [attach_edge_blank h ha hm (hnm ▸ hk)] at he
      cases he
    rw [if_neg hnm]
    have hold : t.edge k = some m' → (if m' = m then u else key m') = key n ++ [c] := by
      intro he'
      have hne : m' ≠ m := fun hmm => hm.edge k (hmm ▸ he')
      rw [if_neg hne]
      exact h.step n c k m' hk he'
    cases s with
    | root => exact hold he
    | edge k0 =>
      obtain ⟨w, d, n0, rfl, hn0, hk0⟩ := ha
      simp only [attach] at he
      split at he
      · rename_i hkk
        cases he
        obtain ⟨rfl, rfl⟩ := h.place n c n0 d k0 (hkk ▸ hk) hk0
        rw [if_pos rfl, h.node hn0]
      · exact hold he
  case place => exact h.place

/-- Among the keys no longer than that of the slot, only this one is led
somewhere it was not. -/
theorem attach_node_short (h : t.Ok key) (ha : t.At s u) {v : List C} (hv : v.length ≤ u.length) :
    ((t.attach s m).node (t.attach s m).root v).isSome = true ↔
      (t.node t.root v).isSome = true ∨ v = u := by
  by_cases hp : u <+: v
  · obtain rfl := hp.eq_of_length_le hv
    simp [attach_node_self h ha]
  · have hne : v ≠ u := fun he => hp (he ▸ List.prefix_rfl)
    rw [attach_node h ha hp]
    simp [hne]

/-- A blank node hung up at an empty slot ends one key, and leads no other
anywhere. -/
theorem attach_node_null (h : t.Ok key) (ha : t.At s u) (hm : t.Blank m) (hn : t.read s = none)
    (v : List C) : ((t.attach s m).node (t.attach s m).root v).isSome = true ↔
      (t.node t.root v).isSome = true ∨ v = u := by
  by_cases hp : u <+: v
  · obtain ⟨x, rfl⟩ := hp
    rw [node_append, attach_node_self h ha, node_append, ha.node, hn, node_none]
    cases x with
    | nil => simp
    | cons c x =>
      simp only [node]
      split
      · simp
      · rename_i k hk
        rw [attach_edge_blank h ha hm hk, node_none]
        simp
  · have hne : v ≠ u := fun he => hp (he ▸ List.prefix_rfl)
    rw [attach_node h ha hp]
    simp [hne]

/-- The node at a slot, hung up there if the slot was empty. -/
inductive Ensure (t : Trie N K C) (s : Slot K) : Trie N K C → N → Prop
  | there {n : N} (found : t.read s = some n) : Ensure t s t n
  | new {n : N} (null : t.read s = none) (fresh : t.Fresh n) : Ensure t s (t.attach s n) n

theorem Ensure.spec [DecidableEq N] {t1 : Trie N K C} {n : N} (he : Ensure t s t1 n) (h : t.Ok key)
    (ha : t.At s u) : ∃ key1, t1.Ok key1 ∧ t1.node t1.root u = some n ∧
      ∀ v, t1.has t1.root v = t.has t.root v := by
  cases he with
  | there found => exact ⟨key, h, ha.node.trans found, fun _ => rfl⟩
  | new null fresh =>
    exact ⟨_, attach_ok h ha fresh.blank, attach_node_self h ha, attach_has_null h ha fresh null⟩

variable [DecidableEq N] [DecidableEq C]

/-- The kid for a chunk at a node, made if there was none. -/
inductive GetOrSet (t : Trie N K C) (n : N) (c : C) : Trie N K C → K → Prop
  | there {k : K} (found : t.kid n c = some k) : GetOrSet t n c t k
  | new {k : K} (missing : t.kid n c = none) (fresh : ∀ n c, t.kid n c ≠ some k) :
      GetOrSet t n c (t.insert n c k) k

/-- A key added from a slot on: the way there is made where it is missing, and
a new node ends it. -/
inductive Adds : Trie N K C → Slot K → List C → Trie N K C → Prop
  | done {t : Trie N K C} {s : Slot K} {m : N} (fresh : t.Fresh m) : Adds t s [] (t.attach s m)
  | step {t t1 t2 t' : Trie N K C} {s : Slot K} {n : N} {c : C} {k : K} {cs : List C}
      (node : Ensure t s t1 n) (kid : GetOrSet t1 n c t2 k) (rest : Adds t2 (.edge k) cs t') :
      Adds t s (c :: cs) t'

theorem GetOrSet.spec {t2 : Trie N K C} {n : N} {c : C} {k : K} (hg : GetOrSet t n c t2 k)
    (h : t.Ok key) (hn : t.node t.root u = some n) : t2.Ok key ∧ t2.At (.edge k) (u ++ [c]) ∧
      ∀ v, t2.has t2.root v = true ↔ t.has t.root v = true ∨ v = u ++ [c] := by
  cases hg with
  | there found =>
    refine ⟨h, ⟨u, c, n, rfl, hn, found⟩, fun v => ⟨Or.inl, ?_⟩⟩
    intro hin
    rcases hin with hv | rfl
    · exact hv
    · exact (has_snoc _ _ _ _).mpr ⟨n, hn, by simp [found]⟩
  | new missing fresh =>
    have hnode := insert_node (c := c) fresh missing t.root u
    exact ⟨insert_ok h fresh, ⟨u, c, n, rfl, hnode.trans hn, by simp [insert]⟩,
      insert_has h fresh missing hn⟩

/-- Among the keys of its own length, an added key is the only new one. -/
theorem Adds.has {t t' : Trie N K C} {s : Slot K} {cs u : List C} {key : N → List C}
    (hadd : Adds t s cs t') (h : t.Ok key) (ha : t.At s u) :
    ∃ key', t'.Ok key' ∧ ∀ v, v.length = u.length + cs.length →
      (t'.has t'.root v = true ↔ t.has t.root v = true ∨ v = u ++ cs) := by
  induction hadd generalizing u key with
  | done fresh =>
    refine ⟨_, attach_ok h ha fresh.blank, fun v hv => ?_⟩
    rw [attach_has_short h ha (Nat.le_of_eq hv), List.append_nil]
    constructor
    · exact Or.inl
    · intro hin
      rcases hin with hv | rfl
      · exact hv
      · exact ha.has
  | @step t t1 t2 t' s n c k cs node kid rest ih =>
    obtain ⟨key1, h1, hn, hhas1⟩ := node.spec h ha
    obtain ⟨h2, ha2, hhas2⟩ := kid.spec h1 hn
    obtain ⟨key', h', hhas⟩ := ih h2 ha2
    refine ⟨key', h', fun v hv => ?_⟩
    rw [hhas v (by simp at hv ⊢; omega), hhas2, hhas1, List.append_assoc, List.singleton_append]
    constructor
    · intro hin
      rcases hin with (hv' | rfl) | hv'
      · exact Or.inl hv'
      · rw [List.length_append, List.length_singleton, List.length_cons] at hv
        have hcs : cs = [] := List.eq_nil_of_length_eq_zero (by omega)
        exact Or.inr (by rw [hcs])
      · exact Or.inr hv'
    · intro hin
      rcases hin with hv' | hv'
      · exact Or.inl (Or.inl hv')
      · exact Or.inr hv'

end

end Trie

end Mepl.Base
