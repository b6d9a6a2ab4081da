import Mepl.Scripts.HashgenTable

namespace Mepl

/-- hashgen prints a table for different keys, and stops at a repeated one. -/
def HashgenEnds (kvps : List Kvp) : Prop :=
  ((kvps.map Kvp.k).Nodup → ∃ passes t, hashgenMain kvps passes = .ok t) ∧
  (¬ (kvps.map Kvp.k).Nodup →
    ∃ passes key, hashgenMain kvps passes = .error (.usage "repeat key: " key))

/-- An identifier, as id() reads it. -/
def isIdent : List Byte → Bool
  | [] => false
  | c :: s => isLowerByte c && s.all isAlphaByte

/-- The first key that has the hash of an earlier one is that key again. -/
def AlikeRepeats (kvps : List Kvp) : Prop :=
  ∀ pre p post, kvps = pre ++ p :: post → (pre.map (fun q => strhash q.k)).Nodup →
    ∀ q ∈ pre, strhash q.k = strhash p.k → q.k = p.k

/-- How a pass ends: with all pairs placed, or at the first pair whose place an
earlier one has. -/
inductive PlaceEnds (cap : Nat) (kvps : List Kvp) : Res (Option (List (Option Kvp))) → Prop
  | filled {t : List (Option Kvp)} (nodup : (kvps.map (fun p => slot cap p.k)).Nodup) :
      PlaceEnds cap kvps (.ok (some t))
  | repeated {pre post : List Kvp} {p q : Kvp} (split : kvps = pre ++ p :: post)
      (nodup : (pre.map (fun p => slot cap p.k)).Nodup) (earlier : q ∈ pre) (key : q.k = p.k) :
      PlaceEnds cap kvps (.error (.usage "repeat key: " p.k))
  | taken {pre post : List Kvp} {p q : Kvp} (split : kvps = pre ++ p :: post)
      (nodup : (pre.map (fun p => slot cap p.k)).Nodup) (earlier : q ∈ pre)
      (place : slot cap q.k = slot cap p.k) (key : q.k ≠ p.k) :
      PlaceEnds cap kvps (.ok none)

section
variable {cap : Nat} {kvps pre post : List Kvp} {p q : Kvp} {hash : List (Option Kvp)}

/-- A pair put in a free place is one more in the table. -/
theorem placed_set (hlt : slot cap p.k < hash.length)
    (hfree : ∀ r ∈ pre, slot cap r.k ≠ slot cap p.k)
    (hput : ∀ i r, hash[i]? = some (some r) ↔ r ∈ pre ∧ slot cap r.k = i) (i : Nat) (r : Kvp) :
    (hash.set (slot cap p.k) (some p))[i]? = some (some r) ↔
      r ∈ pre ++ [p] ∧ slot cap r.k = i := by
  rw [List.getElem?_set, List.mem_append, List.mem_singleton]
  by_cases hi : slot cap p.k = i
  · rw [if_pos hi, if_pos hlt]
    constructor
    · intro hr
      cases hr
      exact ⟨Or.inr rfl, hi⟩
    · intro hr
      obtain ⟨hr | rfl, hs⟩ := hr
      · exact absurd (hs.trans hi.symm) (hfree r hr)
      · rfl
  · rw [if_neg hi, hput]
    constructor
    · intro hr
      exact ⟨Or.inl hr.1, hr.2⟩
    · intro hr
      obtain ⟨hr | rfl, hs⟩ := hr
      · exact ⟨hr, hs⟩
      · exact absurd hs hi

theorem place_ends (hcap : 0 < cap) (hlen : hash.length = cap)
    (hnodup : (pre.map (fun p => slot cap p.k)).Nodup)
    (hput : ∀ i p, hash[i]? = some (some p) ↔ p ∈ pre ∧ slot cap p.k = i) :
    PlaceEnds cap (pre ++ kvps) (place cap kvps hash) := by
  induction kvps generalizing hash pre with
  | nil =>
    rw [List.append_nil]
    exact .filled hnodup
  | cons p kvps ih =>
    have hlt : slot cap p.k < hash.length := by
      rw [hlen]
      exact Nat.mod_lt _ hcap
    have hslot : (hashgenStrhash p.k).toNat % cap = slot cap p.k := rfl
    simp only [place, hslot, load_lt hlt, ok_bind]
    have hget := List.getElem?_eq_getElem hlt
    cases he : hash[slot cap p.k] with
    | none =>
      rw [he] at hget
      simp only [store_lt hlt, ok_bind]
      have hfree : ∀ r ∈ pre, slot cap r.k ≠ slot cap p.k := by
        intro r hr hs
        have hr' := (hput _ r).mpr ⟨hr, hs⟩
        rw [hget] at hr'
        cases hr'
      rw [List.append_cons]
      refine ih ?_ ?_ ?_
      · rw [List.length_set, hlen]
      · rw [List.map_append, List.nodup_append]
        refine ⟨hnodup, List.nodup_singleton _, ?_⟩
        intro a ha b hb
        obtain ⟨r, hr, rfl⟩ := List.mem_map.mp ha
        obtain rfl := List.mem_singleton.mp hb
        exact hfree r hr
      · exact placed_set hlt hfree hput
    | some q =>
      rw [he] at hget
      obtain ⟨hq, hs⟩ := (hput _ q).mp hget
      simp only
      by_cases hk : q.k = p.k
      · rw [if_pos hk]
        exact .repeated rfl hnodup hq hk
      · rw [if_neg hk]
        exact .taken rfl hnodup hq hs hk

theorem pass_ends (kvps : List Kvp) (hcap : 0 < cap) :
    PlaceEnds cap kvps (place cap kvps (List.replicate cap none)) := by
  rw [← List.nil_append kvps]
  refine place_ends hcap List.length_replicate List.nodup_nil ?_
  intro i p
  simp [getElem?_replicate_none]

theorem slot_alike (h : strhash q.k = strhash p.k) : slot cap q.k = slot cap p.k := by
  rw [slot, slot, h]

/-- Two keys at different positions of a list without repetitions. -/
theorem nodup_apart {f : Kvp → α} (h : ((pre ++ p :: post).map f).Nodup) (hq : q ∈ pre) :
    f q ≠ f p := by
  rw [List.map_append, List.nodup_append] at h
  exact h.2.2 _ (List.mem_map_of_mem hq) _ (List.mem_map_of_mem List.mem_cons_self)

/-- A pass never gets past two different keys with one hash, at any size. -/
theorem alike_taken (hcap : 0 < cap) (hsplit : kvps = pre ++ p :: post)
    (hnodup : (pre.map (fun q => strhash q.k)).Nodup) (hq : q ∈ pre)
    (hhash : strhash q.k = strhash p.k) (hkey : q.k ≠ p.k) :
    place cap kvps (List.replicate cap none) = .ok none := by
  have hends := pass_ends kvps hcap
  generalize place cap kvps (List.replicate cap none) = r at hends
  cases hends with
  | filled hfull =>
    rw [hsplit] at hfull
    exact absurd (slot_alike hhash) (nodup_apart hfull hq)
  | @repeated pre' post' p' q' split hfull earlier key =>
    exfalso
    -- were it p that is repeated, q would be its earlier occurrence
    have hsame : p = p' → q' ∉ pre := by
      intro hp earlier
      rw [← hp] at key
      have hqq := List.inj_on_of_nodup_map hnodup earlier hq
        ((congrArg strhash key).trans hhash.symm)
      exact hkey (hqq ▸ key)
    rw [hsplit, List.append_eq_append_iff] at split
    rcases split with ⟨as, hpre, hpost⟩ | ⟨as, hpre, hpost⟩
    · cases as with
      | nil =>
        rw [hpre, List.append_nil] at earlier
        exact hsame (List.cons.inj hpost).1 earlier
      | cons a as =>
        obtain rfl : p = a := (List.cons.inj hpost).1
        rw [hpre] at hfull
        exact nodup_apart hfull hq (slot_alike hhash)
    · cases as with
      | nil =>
        rw [List.append_nil] at hpre
        rw [← hpre] at earlier
        exact hsame (List.cons.inj hpost).1.symm earlier
      | cons a as =>
        obtain rfl : p' = a := (List.cons.inj hpost).1
        rw [hpre] at hnodup
        exact nodup_apart hnodup earlier (congrArg strhash key)
  | taken => rfl

/-- At a size of 2^64 the place of a key is its hash. -/
theorem slot_word (s : List Byte) : slot (2 ^ 64) s = (strhash s).toNat :=
  Nat.mod_eq_of_lt (strhash s).isLt

theorem slot_word_nodup : (kvps.map (fun p => slot (2 ^ 64) p.k)).Nodup ↔
    (kvps.map (fun p => strhash p.k)).Nodup := by
  have hmap : kvps.map (fun p => slot (2 ^ 64) p.k) =
      (kvps.map (fun p => strhash p.k)).map BitVec.toNat := by
    rw [List.map_map]
    exact List.map_congr_left (fun p _ => slot_word p.k)
  rw [hmap, List.nodup_map_iff (fun _ _ => BitVec.eq_of_toNat_eq)]

/-- At that size no pass restarts unless two different keys have one hash. -/
theorem word_not_taken (h : AlikeRepeats kvps) :
    place (2 ^ 64) kvps (List.replicate (2 ^ 64) none) ≠ .ok none := by
  have hends := pass_ends kvps (Nat.two_pow_pos 64)
  generalize place (2 ^ 64) kvps (List.replicate (2 ^ 64) none) = r at hends
  intro hr
  cases hends with
  | filled => cases hr
  | repeated => cases hr
  | taken split nodup earlier place key =>
    rw [slot_word_nodup] at nodup
    rw [slot_word, slot_word] at place
    exact key (h _ _ _ split nodup _ earlier (BitVec.eq_of_toNat_eq place))

theorem again_never (h : ∀ cap, 0 < cap → place cap kvps (List.replicate cap none) = .ok none)
    (n : Nat) (hcap : 0 < cap) : again kvps n cap = .error .fuel := by
  induction n generalizing cap with
  | zero => rfl
  | succ n ih =>
    rw [again, h cap hcap, ok_bind]
    exact ih (Nat.succ_pos cap)

/-- The loop stops at a size, or goes on to the next one. -/
theorem again_step (hcap : 0 < cap) (n : Nat) :
    (∃ t, again kvps (n + 1) cap = .ok t) ∨
      (∃ key, again kvps (n + 1) cap = .error (.usage "repeat key: " key)) ∨
      (place cap kvps (List.replicate cap none) = .ok none ∧
        again kvps (n + 1) cap = again kvps n (cap + 1)) := by
  have hends := pass_ends kvps hcap
  rw [again]
  generalize place cap kvps (List.replicate cap none) = r at hends
  cases hends with
  | @filled t => exact Or.inl ⟨t, rfl⟩
  | @repeated pre post p q => exact Or.inr (Or.inl ⟨p.k, rfl⟩)
  | taken => exact Or.inr (Or.inr ⟨rfl, rfl⟩)

/-- A size at which no pass restarts bounds the loop. -/
theorem again_stops (n : Nat) (hcap : 0 < cap)
    (h : place (cap + n) kvps (List.replicate (cap + n) none) ≠ .ok none) :
    (∃ t, again kvps (n + 1) cap = .ok t) ∨
      ∃ key, again kvps (n + 1) cap = .error (.usage "repeat key: " key) := by
  induction n generalizing cap with
  | zero =>
    rcases again_step hcap 0 with ht | hkey | ⟨htaken, -⟩
    · exact Or.inl ht
    · exact Or.inr hkey
    · exact absurd htaken h
  | succ n ih =>
    rcases again_step hcap (n + 1) with ht | hkey | ⟨-, hnext⟩
    · exact Or.inl ht
    · exact Or.inr hkey
    · rw [hnext]
      rw [Nat.add_comm n 1, ← Nat.add_assoc] at h
      exact ih (Nat.succ_pos cap) h

theorem hashgen_main_again (kvps : List Kvp) (passes : Nat) : hashgenMain kvps passes =
    (again kvps passes 1 >>= fun t => pure (hashgenPrint t.length t)) :=
  hashgen_again_eq kvps passes 1

theorem not_alike_repeats (h : ¬ AlikeRepeats kvps) (passes : Nat) :
    hashgenMain kvps passes = .error .fuel := by
  simp only [AlikeRepeats, not_forall] at h
  obtain ⟨pre, p, post, hsplit, hnodup, q, hq, hhash, hkey⟩ := h
  rw [hashgen_main_again, again_never _ passes Nat.one_pos, error_bind]
  intro cap hcap
  exact alike_taken hcap hsplit hnodup hq hhash hkey

/-- The loop ends as it should exactly when the first key with the hash of an
earlier one is that key again. -/
theorem hashgen_ends_iff (kvps : List Kvp) : HashgenEnds kvps ↔ AlikeRepeats kvps := by
  constructor
  · intro hends
    by_contra hn
    have hnever := not_alike_repeats hn
    by_cases hkeys : (kvps.map Kvp.k).Nodup
    · obtain ⟨passes, t, hrun⟩ := hends.1 hkeys
      rw [hnever] at hrun
      cases hrun
    · obtain ⟨passes, key, hrun⟩ := hends.2 hkeys
      rw [hnever] at hrun
      cases hrun
  · intro halike
    have hsize : 1 + (2 ^ 64 - 1) = 2 ^ 64 := rfl
    have htaken := word_not_taken halike
    rw [← hsize] at htaken
    have hstops := again_stops (2 ^ 64 - 1) Nat.one_pos htaken
    generalize hpasses : 2 ^ 64 - 1 + 1 = passes at hstops
    rcases hstops with ⟨t, ht⟩ | ⟨key, hkey⟩
    · have hnodup := (again_perfect ht).keys
      refine ⟨fun _ => ⟨passes, hashgenPrint t.length t, ?_⟩, fun hn => absurd hnodup hn⟩
      rw [hashgen_main_again, ht]
      rfl
    · have hcount := again_repeat hkey
      refine ⟨fun hn => ?_, fun _ => ⟨passes, key, ?_⟩⟩
      · have hone := List.nodup_iff_count_le_one.mp hn key
        omega
      · rw [hashgen_main_again, hkey]
        rfl

end

/-- "aAa" and "aBB": 31 * 'A' + 'a' is 31 * 'B' + 'B'. -/
def hashAlike : List Kvp := [⟨[97#8, 65#8, 97#8], [88#8]⟩, ⟨[97#8, 66#8, 66#8], [89#8]⟩]

theorem hashgen_never_ends : (∀ p ∈ hashAlike, isIdent p.k = true) ∧
    (hashAlike.map Kvp.k).Nodup ∧ ¬ HashgenEnds hashAlike := by
  have hnodup : (hashAlike.map Kvp.k).Nodup := by decide
  refine ⟨by decide, hnodup, ?_⟩
  intro hends
  obtain ⟨passes, t, hrun⟩ := hends.1 hnodup
  have hn : ¬ AlikeRepeats hashAlike := by
    intro halike
    have hkey := halike [⟨[97#8, 65#8, 97#8], [88#8]⟩] _ [] rfl (List.nodup_singleton _) _
      (List.mem_singleton_self _) rfl
    cases hkey
  rw [not_alike_repeats hn] at hrun
  cases hrun

end Mepl
