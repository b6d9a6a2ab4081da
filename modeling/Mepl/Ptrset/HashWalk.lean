import Mepl.Base.Chain
import Mepl.Ptrset.Hash

namespace Mepl
open Base

/-- The link k, unless it has been freed. -/
def linkAt (links : List (Option Hlink)) (k : Nat) : Option Hlink := links[k]?.join

def nextLink (links : List (Option Hlink)) (k : Nat) : Option Ptr :=
  (linkAt links k).map Hlink.next

section
variable {links : List (Option Hlink)} {k p : Nat} {link : Hlink}

theorem link_at_iff : linkAt links k = some link ↔ links[k]? = some (some link) := by
  unfold linkAt
  exact Option.join_eq_some_iff

theorem link_at_lt (h : linkAt links k = some link) : k < links.length :=
  (List.getElem?_eq_some_iff.mp (link_at_iff.mp h)).1

theorem read_link (h : linkAt links k = some link) : readLink links k = .ok link := by
  rw [readLink, load_some (link_at_iff.mp h), ok_bind]
  rfl

theorem link_at_set (x : Option Hlink) (hp : p < links.length) :
    linkAt (links.set p x) p = x := by
  simp [linkAt, hp]

theorem link_at_set_ne (x : Option Hlink) (hne : k ≠ p) :
    linkAt (links.set p x) k = linkAt links k := by
  rw [linkAt, linkAt, List.getElem?_set_ne hne.symm]

end

section
variable {σ : Type} {links : σ → List (Option Hlink)} {body : σ → Nat → Res σ} {s s' : σ}
  {p : Ptr} {ks : List Nat} {n len count : Nat}

/-- The body changes no link but the one it runs on. -/
def TouchesOwn (links : σ → List (Option Hlink)) (body : σ → Nat → Res σ) : Prop :=
  ∀ s k s', body s k = .ok s' → (links s').length = (links s).length ∧
    ∀ q, q ≠ k → linkAt (links s') q = linkAt (links s) q

theorem TouchesOwn.fold (ho : TouchesOwn links body) (h : ks.foldlM body s = .ok s') :
    (links s').length = (links s).length ∧
      ∀ q, q ∉ ks → linkAt (links s') q = linkAt (links s) q := by
  induction ks generalizing s with
  | nil =>
    cases h
    exact ⟨rfl, fun _ _ => rfl⟩
  | cons k ks ih =>
    rw [List.foldlM_cons, bind_ok] at h
    obtain ⟨s1, h1, h⟩ := h
    obtain ⟨hlen1, hothers1⟩ := ho s k s1 h1
    obtain ⟨hlen, hothers⟩ := ih h
    refine ⟨hlen.trans hlen1, fun q hq => ?_⟩
    rw [List.mem_cons, not_or] at hq
    rw [hothers q hq.2, hothers1 q hq.1]

theorem next_link_congr {l l' : List (Option Hlink)} {k : Nat} (h : linkAt l' k = linkAt l k) :
    nextLink l' k = nextLink l k := by
  rw [nextLink, nextLink, h]

theorem chain_length_le {l : List (Option Hlink)} (h : Chain (nextLink l) p ks) :
    ks.length ≤ l.length := by
  apply length_le_of_lt h.nodup
  intro k hk
  obtain ⟨q, hq⟩ := h.cell_mem hk
  obtain ⟨link, hlink, -⟩ := Option.map_eq_some_iff.mp hq
  exact link_at_lt hlink

/-- The inner loop runs the body along a chain: the chain that is left is not
changed by the body, since no chain comes back to a link. -/
theorem chain_for_each_safe (ho : TouchesOwn links body) (h : Chain (nextLink (links s)) p ks)
    (hfuel : ks.length < n) : chainForEachSafe links body n s p count = (do
      let s' ← ks.foldlM body s
      pure (s', count + ks.length)) := by
  induction ks generalizing n s p count with
  | nil =>
    cases h
    cases n with
    | zero => exact absurd hfuel (Nat.lt_irrefl 0)
    | succ n => rfl
  | cons k ks ih =>
    have hnodup := h.nodup
    cases h with
    | cons cell rest =>
      rename_i q
      cases n with
      | zero => exact absurd hfuel (Nat.not_lt_zero _)
      | succ n =>
        obtain ⟨link, hlink, rfl⟩ := Option.map_eq_some_iff.mp cell
        rw [chainForEachSafe, read_link hlink, ok_bind, List.foldlM_cons]
        cases hb : body s k with
        | error e => rfl
        | ok s1 =>
          obtain ⟨-, hothers⟩ := ho s k s1 hb
          have hrest := rest.congr (fun j hj => next_link_congr (hothers j (by
            intro he
            exact (List.nodup_cons.mp hnodup).1 (he ▸ hj))))
          simp only [ok_bind]
          rw [ih hrest (Nat.lt_of_succ_lt_succ hfuel), List.length_cons]
          simp only [Nat.add_assoc, Nat.add_comm 1]

/-- The chains of the buckets of a table. -/
abbrev ChainsOf (links : List (Option Hlink)) : List Ptr → List (List Nat) → Prop :=
  List.Forall₂ (Chain (nextLink links))

theorem ChainsOf.congr {l l' : List (Option Hlink)} {tab : List Ptr} {chains : List (List Nat)}
    (h : ChainsOf l tab chains) (hsame : ∀ k ∈ chains.flatten, linkAt l' k = linkAt l k) :
    ChainsOf l' tab chains := by
  induction h with
  | nil => exact .nil
  | cons hc _ ih =>
    simp only [List.flatten_cons, List.mem_append] at hsame
    exact .cons (hc.congr (fun k hk => next_link_congr (hsame k (Or.inl hk))))
      (ih (fun k hk => hsame k (Or.inr hk)))

/-- As long as links are left to count, a bucket is left that holds them: the
traversal is the body run once on every link, bucket by bucket, and it never
reads past the end of the table. -/
theorem hash_for_each_safe (ho : TouchesOwn links body) {tab : List Ptr}
    {chains : List (List Nat)} (h : ChainsOf (links s) tab chains)
    (hnodup : chains.flatten.Nodup) (hlen : len = count + chains.flatten.length) :
    hashForEachSafe links body len tab s count = chains.flatten.foldlM body s := by
  induction chains generalizing tab s count with
  | nil =>
    cases h
    rw [hashForEachSafe, if_neg (by simp at hlen; omega)]
    rfl
  | cons ks chains ih =>
    cases h with
    | cons hc hrest =>
      rename_i p tab
      rw [List.flatten_cons, List.length_append] at hlen
      rw [hashForEachSafe, List.flatten_cons, List.foldlM_append]
      split
      · have hfuel := Nat.lt_succ_of_le (chain_length_le hc)
        simp only
        rw [chain_for_each_safe ho hc hfuel]
        cases hf : ks.foldlM body s with
        | error e => rfl
        | ok s1 =>
          rw [List.flatten_cons, List.nodup_append] at hnodup
          obtain ⟨-, hothers⟩ := ho.fold hf
          have hrest1 := ChainsOf.congr hrest (fun k hk =>
            hothers k (fun hin => hnodup.2.2 k hin k hk rfl))
          exact ih hrest1 hnodup.2.1 (by omega)
      · have hnil : ks = [] ∧ chains.flatten = [] := by
          constructor <;> apply List.eq_nil_of_length_eq_zero <;> omega
        rw [hnil.1, hnil.2]
        rfl

end

end Mepl
