import Mathlib.Data.List.Nodup
import Mathlib.Order.Bounds.Basic
import Mepl.Scripts.Hashgen

namespace Mepl

/-- A line printed for a place of the table. -/
inductive Row where
  | pair (k v : List Byte)
  | null
deriving DecidableEq, Repr

/-- The size printed, and the lines between the braces. -/
def hashgenPrint (cap : Nat) (hash : List (Option Kvp)) : Nat × List Row :=
  (cap, hash.map (fun p => match p with
    | some p => .pair p.k p.v
    | none => .null))

/-- The loop over the pairs, from a table as it is: the table as it leaves it,
and whether it met a place that was taken. -/
def pass (cap : Nat) : List Kvp → List (Option Kvp) → Res (List (Option Kvp) × Bool)
  | [], hash => pure (hash, false)
  | k :: kvps, hash => do
    let i := (hashgenStrhash k.k).toNat % cap
    match ← load hash i with
    | none => do
      let hash ← store hash i (some k)
      pass cap kvps hash
    | some q => if q.k = k.k then throw (.usage "repeat key: " k.k) else pure (hash, true)

/-- hash.resize(cap) -/
def resize (hash : List (Option Kvp)) (cap : Nat) : List (Option Kvp) :=
  hash.take cap ++ List.replicate (cap - hash.length) none

/-- fill(begin(hash), end(hash), nullptr) -/
def fillNull (hash : List (Option Kvp)) : List (Option Kvp) := hash.map (fun _ => none)

def hashgenAgain (kvps : List Kvp) : Nat → List (Option Kvp) → Nat → Res (Nat × List Row)
  | 0, _, _ => .error .fuel
  | n + 1, hash, cap => do
    let (hash, taken) ← pass cap kvps hash
    if taken then
      let cap := cap + 1
      let hash := resize hash cap
      let hash := fillNull hash
      hashgenAgain kvps n hash cap
    else pure (hashgenPrint cap hash)

/-- What hashgen does with its pairs, in so many passes. -/
def hashgenMain (kvps : List Kvp) (passes : Nat) : Res (Nat × List Row) :=
  hashgenAgain kvps passes [none] 1

/-- The size is the least at which all pairs have places of their own, and the
rows are the pairs at their places. -/
structure PerfectTable (kvps : List Kvp) (cap : Nat) (rows : List Row) : Prop where
  least : IsLeast {n | 1 ≤ n ∧ (kvps.map (fun p => slot n p.k)).Nodup} cap
  size : rows.length = cap
  placed : ∀ p ∈ kvps, rows[slot cap p.k]? = some (.pair p.k p.v)
  once : ∀ p ∈ kvps, ∀ i v, rows[i]? = some (.pair p.k v) → i = slot cap p.k ∧ v = p.v
  others : ∀ i < cap, (∀ p ∈ kvps, slot cap p.k ≠ i) → rows[i]? = some .null
  keys : (kvps.map Kvp.k).Nodup

section
variable {cap : Nat} {p : Kvp} {kvps : List Kvp} {hash t : List (Option Kvp)}

/-- A pass that stops at a taken place leaves what it has placed behind. -/
theorem pass_place (cap : Nat) (kvps : List Kvp) (hash : List (Option Kvp)) :
    place cap kvps hash =
      (pass cap kvps hash >>= fun r => pure (if r.2 then none else some r.1)) := by
  induction kvps generalizing hash with
  | nil => rfl
  | cons k kvps ih =>
    simp only [place, pass]
    cases load hash ((hashgenStrhash k.k).toNat % cap) with
    | error e => rfl
    | ok e =>
      simp only [ok_bind]
      cases e with
      | none =>
        cases store hash ((hashgenStrhash k.k).toNat % cap) (some k) with
        | error e => rfl
        | ok hash => exact ih hash
      | some q =>
        simp only
        split
        · rfl
        · rfl

theorem pass_length {r : List (Option Kvp) × Bool} (h : pass cap kvps hash = .ok r) :
    r.1.length = hash.length := by
  induction kvps generalizing hash with
  | nil =>
    cases h
    rfl
  | cons k kvps ih =>
    rw [pass, bind_ok] at h
    obtain ⟨e, -, h⟩ := h
    cases e with
    | none =>
      obtain ⟨hash', hstore, h⟩ := bind_ok.mp h
      rw [ih h, store_length hstore]
    | some q =>
      simp only at h
      split at h
      · cases h
      · cases h
        rfl

/-- Resized and cleared, a table of any content is an empty one. -/
theorem fill_null_resize (h : hash.length ≤ cap) :
    fillNull (resize hash cap) = List.replicate cap none := by
  have hlen : (resize hash cap).length = cap := by
    rw [resize, List.length_append, List.length_take, List.length_replicate]
    omega
  rw [fillNull, List.map_const', hlen]

/-- Every restart is from an empty table of the next size. -/
theorem hashgen_again_eq (kvps : List Kvp) (n cap : Nat) :
    hashgenAgain kvps n (List.replicate cap none) cap =
      (again kvps n cap >>= fun t => pure (hashgenPrint t.length t)) := by
  induction n generalizing cap with
  | zero => rfl
  | succ n ih =>
    rw [hashgenAgain, again, pass_place]
    cases hpass : pass cap kvps (List.replicate cap none) with
    | error e => rfl
    | ok r =>
      obtain ⟨hash, taken⟩ := r
      have hlen := pass_length hpass
      rw [List.length_replicate] at hlen
      cases taken with
      | true =>
        have hle : hash.length ≤ cap + 1 := Nat.le_succ_of_le (Nat.le_of_eq hlen)
        simp only [ok_bind, ↓reduceIte, pure_ok, fill_null_resize hle]
        exact ih (cap + 1)
      | false =>
        simp only at hlen
        simp [hlen]

/-- A pass that fills the table found every place it used empty. -/
theorem place_nodup (h : place cap kvps hash = .ok (some t)) :
    (kvps.map (fun p => slot cap p.k)).Nodup ∧ ∀ p ∈ kvps, hash[slot cap p.k]? = some none := by
  induction kvps generalizing hash with
  | nil => exact ⟨List.nodup_nil, fun p hp => absurd hp List.not_mem_nil⟩
  | cons q kvps ih =>
    rcases place_cons h with ⟨hfree, h⟩ | ⟨-, -, -, hr⟩
    · obtain ⟨hnodup, hall⟩ := ih h
      have hne : ∀ p ∈ kvps, slot cap p.k ≠ slot cap q.k := by
        intro p hp he
        have hp' := hall p hp
        rw [he, List.getElem?_set_self (List.getElem?_eq_some_iff.mp hfree).1] at hp'
        cases hp'
      refine ⟨?_, ?_⟩
      · rw [List.map_cons, List.nodup_cons]
        refine ⟨?_, hnodup⟩
        intro hin
        obtain ⟨p, hp, he⟩ := List.mem_map.mp hin
        exact hne p hp he
      · intro p hp
        rcases List.mem_cons.mp hp with rfl | hp
        · exact hfree
        · have hp' := hall p hp
          rwa [List.getElem?_set_ne (hne p hp).symm] at hp'
    · cases hr

theorem again_nodup {fuel : Nat} (h : again kvps fuel cap = .ok t) :
    (kvps.map (fun p => slot t.length p.k)).Nodup := by
  induction fuel generalizing cap with
  | zero => cases h
  | succ n ih =>
    rw [again, bind_ok] at h
    obtain ⟨r, hr, h⟩ := h
    cases r with
    | some hash =>
      cases h
      have hlen := (place_some hr).1
      rw [List.length_replicate] at hlen
      rw [hlen]
      exact (place_nodup hr).1
    | none => exact ih h

/-- The error of a pass names the key of a pair that an earlier one has too. -/
theorem place_repeat {pre : List Kvp} {key : List Byte}
    (h : place cap kvps hash = .error (.usage "repeat key: " key))
    (hput : ∀ (i : Nat) (p : Kvp), hash[i]? = some (some p) → p ∈ pre) :
    2 ≤ ((pre ++ kvps).map Kvp.k).count key := by
  induction kvps generalizing hash pre with
  | nil => cases h
  | cons q kvps ih =>
    simp only [place, load] at h
    split at h
    · rename_i e he
      simp only [ok_bind] at h
      cases e with
      | none =>
        simp only [store] at h
        split at h
        · have hput' : ∀ (i : Nat) (p : Kvp),
              (hash.set ((hashgenStrhash q.k).toNat % cap) (some q))[i]? = some (some p) →
              p ∈ pre ++ [q] := by
            intro i p hp
            rw [List.getElem?_set] at hp
            split at hp
            · cases hp
              exact List.mem_append_right _ (List.mem_singleton_self _)
            · exact List.mem_append_left _ (hput i p hp)
          have hcount := ih h hput'
          rwa [List.append_assoc] at hcount
        · cases h
      | some r =>
        simp only at h
        split at h
        · rename_i hkey
          cases h
          have hr := List.mem_map_of_mem (f := Kvp.k) (hput _ _ he)
          rw [hkey] at hr
          have hpos := List.count_pos_iff.mpr hr
          rw [List.map_append, List.count_append, List.map_cons, List.count_cons_self]
          omega
        · cases h
    · cases h

theorem again_repeat {fuel : Nat} {key : List Byte}
    (h : again kvps fuel cap = .error (.usage "repeat key: " key)) :
    2 ≤ (kvps.map Kvp.k).count key := by
  induction fuel generalizing cap with
  | zero => cases h
  | succ n ih =>
    rw [again] at h
    cases hr : place cap kvps (List.replicate cap none) with
    | error e =>
      rw [hr] at h
      cases h
      have hempty : ∀ (i : Nat) (p : Kvp), (List.replicate cap none)[i]? = some (some p) → p ∈ [] :=
        fun _ _ hp => absurd hp getElem?_replicate_none
      exact place_repeat hr hempty
    | ok r =>
      rw [hr, ok_bind] at h
      cases r with
      | some hash => cases h
      | none => exact ih h

theorem again_perfect {fuel : Nat} (h : again kvps fuel 1 = .ok t) :
    PerfectTable kvps t.length (hashgenPrint t.length t).2 := by
  obtain ⟨⟨hone, -, hbelow⟩, htable⟩ := again_table (Nat.le_refl 1) (fun c h1 hc => by omega) h
  have hnodup := again_nodup h
  have hinj := List.inj_on_of_nodup_map hnodup
  refine ⟨⟨⟨hone, hnodup⟩, ?_⟩, ?_, ?_, ?_, ?_, ?_⟩
  · -- at a smaller size two pairs with different keys share a place
    intro c hc
    obtain ⟨hc1, hcn⟩ := hc
    by_contra hlt
    apply hbelow c hc1 (Nat.lt_of_not_le hlt)
    intro p hp q hq hs
    rw [List.inj_on_of_nodup_map hcn hp hq hs]
  · simp [hashgenPrint]
  · intro p hp
    have hget := (htable _ p).mpr ⟨hp, rfl⟩
    simp [hashgenPrint, hget]
  · intro p hp i v hrow
    simp only [hashgenPrint, List.getElem?_map, Option.map_eq_some_iff] at hrow
    obtain ⟨e, he, hrow⟩ := hrow
    cases e with
    | none => cases hrow
    | some q =>
      obtain ⟨hq, hs⟩ := (htable i q).mp he
      simp only [Row.pair.injEq] at hrow
      have hqp : q = p := hinj hq hp (congrArg (slot t.length) hrow.1)
      rw [← hqp]
      exact ⟨hs.symm, hrow.2.symm⟩
  · intro i hi hfree
    have hget := List.getElem?_eq_getElem hi
    cases he : t[i] with
    | none => simp [hashgenPrint, hget, he]
    | some p =>
      rw [he] at hget
      obtain ⟨hp, hs⟩ := (htable i p).mp hget
      exact absurd hs (hfree p hp)
  · refine List.Nodup.of_map (slot t.length) ?_
    rw [List.map_map]
    exact hnodup

/-- Whatever the pairs: if hashgen comes to print, it prints a table of the
least size with every pair at its place, and if it stops at a repeated key, two
pairs have that key. -/
theorem hashgen_perfect (kvps : List Kvp) (passes : Nat) :
    (∀ cap rows, hashgenMain kvps passes = .ok (cap, rows) → PerfectTable kvps cap rows) ∧
    (∀ key, hashgenMain kvps passes = .error (.usage "repeat key: " key) →
      2 ≤ (kvps.map Kvp.k).count key) := by
  have hagain := hashgen_again_eq kvps passes 1
  have hmain : hashgenMain kvps passes =
      (again kvps passes 1 >>= fun t => pure (hashgenPrint t.length t)) := hagain
  rw [hmain]
  constructor
  · intro cap rows h
    obtain ⟨t, ht, h⟩ := bind_ok.mp h
    cases h
    exact again_perfect ht
  · intro key h
    cases hrun : again kvps passes 1 with
    | error e =>
      rw [hrun] at h
      cases h
      exact again_repeat hrun
    | ok t =>
      rw [hrun] at h
      cases h

end

/-- "a=A" and "c=C" collide at sizes 1 and 2. -/
theorem hashgen_perfect_ac : PerfectTable [⟨[97#8], [65#8]⟩, ⟨[99#8], [67#8]⟩] 3
    [.pair [99#8] [67#8], .pair [97#8] [65#8], .null] :=
  (hashgen_perfect _ 3).1 _ _ (by decide)

end Mepl
