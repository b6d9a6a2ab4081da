import Mepl.Ptrset.HashRuns
import Mepl.Ptrset.Prime

namespace Mepl
open Base

/-- The links that hash_grow moves, in the order of its loop. -/
def growMoved (hp : Hash) : Res (List Nat) := do
  let cap := nextPrime (hp.cap * 2)
  let (_, moved) ← hashForEachSafe (fun s => s.1.1) (logged (growBody cap)) hp.len hp.tab
    ((hp.links, List.replicate cap none), []) 0
  pure moved

/-- The links that hash_set moves. -/
def setMoved (hp : Hash) (ptr : Word) : Res (List Nat) := do
  let p ← hashFind hp ((hashfn hp.seed ptr).toNat % hp.cap) ptr
  if p.isNone ∧ 4 * hp.len > 3 * hp.cap then growMoved hp else pure []

/-- hash_set, with a count of the links moved so far. -/
def countedSet (s : Hash × Nat) (ptr : Word) : Res (Hash × Nat) := do
  let moved ← setMoved s.1 ptr
  let hp ← hashSet s.1 ptr
  pure (hp, s.2 + moved.length)

def countedRun (seed : Word) (ptrs : List Word) : Res (Hash × Nat) :=
  ptrs.foldlM countedSet (hashNew seed, 0)

/-- The count is next to the run, and not part of it. -/
theorem counted_fold {s s' : Hash × Nat} {ptrs : List Word}
    (h : ptrs.foldlM countedSet s = .ok s') : ptrs.foldlM hashSet s.1 = .ok s'.1 := by
  induction ptrs generalizing s with
  | nil =>
    cases h
    rfl
  | cons ptr ptrs ih =>
    rw [List.foldlM_cons, bind_ok] at h
    obtain ⟨s1, h1, h⟩ := h
    simp only [countedSet, bind_ok] at h1
    obtain ⟨moved, -, hp, hset, h1⟩ := h1
    cases h1
    rw [List.foldlM_cons, hset]
    exact ih h

section
variable {hp hp' : Hash} {chains : List (List Nat)} {ptr : Word} {moved : Nat}

/-- hash_grow moves every link there is. -/
theorem HashOk.grow_moved (h : HashOk hp chains) : ∃ ks, growMoved hp = .ok ks ∧
    ks.length = hp.len := by
  obtain ⟨s', -, hgrow, -⟩ := grow_fold (s := (_, _)) (next_prime_spec (hp.cap * 2)).2.pos
    (.new hp.links _) h.nodup (by simp) (fun k hk => h.buckets.live hk)
  obtain ⟨-, ks, hwalk, hperm⟩ := h.visits_each grow_body_touches_own hgrow
  refine ⟨ks, ?_, ?_⟩
  · rw [growMoved, hwalk]
    rfl
  · rw [hperm.length_eq, h.len, h.links.length_eq]

theorem hash_grow_sizes (h : hashGrow hp = .ok hp') :
    hp'.cap = nextPrime (hp.cap * 2) ∧ hp'.len = hp.len := by
  simp only [hashGrow, bind_ok] at h
  obtain ⟨s, -, h⟩ := h
  cases h
  exact ⟨rfl, rfl⟩

/-- What a call of hash_set does to the sizes, and how many links it moves. -/
inductive SetSizes (hp hp' : Hash) : Nat → Prop
  | found (same : hp' = hp) : SetSizes hp hp' 0
  | room (light : 4 * hp.len ≤ 3 * hp.cap) (cap : hp'.cap = hp.cap)
      (len : hp'.len = hp.len + 1) : SetSizes hp hp' 0
  | grown (heavy : 3 * hp.cap < 4 * hp.len) (cap : hp'.cap = nextPrime (hp.cap * 2))
      (len : hp'.len = hp.len + 1) : SetSizes hp hp' hp.len

theorem HashOk.set_sizes (h : HashOk hp chains) (hset : hashSet hp ptr = .ok hp') :
    ∃ ks, setMoved hp ptr = .ok ks ∧ SetSizes hp hp' ks.length := by
  simp only [hashSet, bind_ok] at hset
  obtain ⟨p, hfind, hset⟩ := hset
  rw [setMoved, hfind, ok_bind]
  split at hset
  · rename_i hin
    cases hset
    rw [if_neg (by simp [Option.isSome_iff_ne_none.mp hin])]
    exact ⟨[], rfl, .found rfl⟩
  · rename_i hout
    obtain ⟨hp1, hgrow, hset⟩ := bind_ok.mp hset
    simp only [bind_ok] at hset
    obtain ⟨next, -, tab, -, hset⟩ := hset
    cases hset
    split at hgrow
    · rename_i hheavy
      obtain ⟨hcap, hlen⟩ := hash_grow_sizes hgrow
      obtain ⟨ks, hks, hmoved⟩ := h.grow_moved
      rw [if_pos ⟨by simpa using hout, hheavy⟩]
      refine ⟨ks, hks, ?_⟩
      rw [hmoved]
      exact .grown hheavy hcap (congrArg (· + 1) hlen)
    · rename_i hlight
      cases hgrow
      rw [if_neg (fun hboth => hlight hboth.2)]
      exact ⟨[], rfl, .room (Nat.le_of_not_lt hlight) rfl rfl⟩

/-- The size of a table that took the place of one of cap buckets. -/
theorem next_prime_twice {cap : Nat} (hcap : 2 ≤ cap) :
    2 * cap < nextPrime (cap * 2) ∧ nextPrime (cap * 2) < 4 * cap := by
  have hleast := next_prime_least (cap * 2)
  obtain ⟨hprime, hle⟩ := hleast.1
  -- no even number from 4 on is a prime
  have hodd : ∀ n, 2 ≤ n → nextPrime (cap * 2) ≠ n * 2 := by
    intro n hn he
    rw [he] at hprime
    rcases (Nat.dvd_prime hprime).mp (Nat.dvd_mul_left 2 n) with h | h <;> omega
  obtain ⟨p, hp, hlt, hbound⟩ := Nat.exists_prime_lt_and_le_two_mul (cap * 2) (by omega)
  have hupper := hleast.2 ⟨hp, Nat.le_of_lt hlt⟩
  have hsame := hodd cap hcap
  have htwice := hodd (2 * cap) (by omega)
  omega

/-- The first table, or one that was grown: then it has no more buckets than
the links call for, and its size has paid for the links moved so far. -/
inductive Growth (hp : Hash) (moved : Nat) : Prop
  | first (cap : hp.cap = 2) (none : moved = 0)
  | grown {k : Nat} (odd : hp.cap = 2 * k + 1) (few : 3 * hp.cap < 16 * hp.len)
      (paid : 4 * moved ≤ 3 * hp.cap + 1) (linear : moved ≤ 2 * hp.len)

theorem hash_new_growth (seed : Word) : Growth (hashNew seed) 0 := by
  have hcap : (hashNew seed).cap = 2 := by
    have hleast := next_prime_least 0
    have hle := hleast.2 ⟨Nat.prime_two, Nat.zero_le 2⟩
    exact Nat.le_antisymm hle hleast.1.1.two_le
  exact .first hcap rfl

theorem Growth.set {n : Nat} (h : Growth hp moved) (hok : HashOk hp chains)
    (hset : SetSizes hp hp' n) : Growth hp' (moved + n) := by
  cases hset with
  | found same => exact same ▸ h
  | room light cap len =>
    cases h with
    | first two none => exact .first (cap.trans two) none
    | grown odd few paid linear =>
      exact .grown (cap.trans odd) (by omega) (by omega) (by omega)
  | grown heavy cap len =>
    have hload := hok.load
    have hprime := hok.prime.two_le
    obtain ⟨hlower, hupper⟩ := next_prime_twice hprime
    obtain ⟨k, hk⟩ : Odd hp'.cap := by
      rw [cap]
      exact (next_prime_spec (hp.cap * 2)).2.odd_of_ne_two (by omega)
    -- the links moved before are no more than the links there are now
    cases h with
    | first two none => exact .grown hk (by omega) (by omega) (by omega)
    | grown odd few paid linear => exact .grown hk (by omega) (by omega) (by omega)

/-- The table holds each of its pointers in one link. -/
theorem HashOk.ptrs_perm {added : List Word} (h : HashOk hp chains)
    (hadded : ∀ q, some q ∈ ptrsOf hp.links chains ↔ q ∈ added) : (ptrsOf hp.links chains).Perm
      (added.dedup.map some) := by
  have hnodup : (added.dedup.map some).Nodup :=
    (List.nodup_map_iff (Option.some_injective Word)).mpr added.nodup_dedup
  refine (List.perm_ext_iff_of_nodup h.distinct hnodup).mpr ?_
  intro x
  cases x with
  | none =>
    refine iff_of_false ?_ (by simp)
    intro hin
    obtain ⟨k, hk, hnone⟩ := List.mem_map.mp hin
    obtain ⟨link, hlink⟩ := h.buckets.live hk
    rw [ptrAt, hlink] at hnone
    cases hnone
  | some q =>
    rw [← ptrsOf, hadded q]
    simp

/-- What a run keeps: the table is the set of what was added, and its size has
paid for the moves. -/
structure MovesPaid (s : Hash × Nat) (added : List Word) : Prop where
  holds : HashHolds s.1 added
  growth : Growth s.1 s.2

theorem MovesPaid.set {s : Hash × Nat} {added : List Word} (ptr : Word) (h : MovesPaid s added) :
    ∃ s', countedSet s ptr = .ok s' ∧ MovesPaid s' (added ++ [ptr]) := by
  obtain ⟨hp', hset, hholds⟩ := h.holds.set ptr
  obtain ⟨chains, hok, -⟩ := h.holds
  obtain ⟨ks, hmoved, hsizes⟩ := hok.set_sizes hset
  refine ⟨(hp', s.2 + ks.length), ?_, hholds, h.growth.set hok hsizes⟩
  rw [countedSet, hmoved, hset]
  rfl

/-- Growing is cheap over a whole run: however often the table was grown, at
most two links were moved for every pointer in it, and it has fewer than 16
buckets for every three pointers, unless it is still the first one. -/
theorem hash_grows_linear (seed : Word) (ptrs : List Word) : ∃ hp moved,
    countedRun seed ptrs = .ok (hp, moved) ∧ hashRun seed ptrs = .ok hp ∧
    hp.len = ptrs.dedup.length ∧ moved ≤ 2 * hp.len ∧
    (hp.cap = 2 ∨ 3 * hp.cap < 16 * hp.len) := by
  have hnew : MovesPaid (hashNew seed, 0) [] := ⟨hash_new_holds seed, hash_new_growth seed⟩
  obtain ⟨s, hrun, h⟩ := fold_keeps (fun ptr h => h.set ptr) ptrs hnew
  obtain ⟨chains, hok, hmem⟩ := h.holds
  have hlen := (hok.ptrs_perm hmem).length_eq
  rw [List.nil_append, ptrsOf, List.length_map, List.length_map, ← hok.len] at hlen
  refine ⟨s.1, s.2, hrun, counted_fold hrun, hlen, ?_, ?_⟩
  · cases h.growth with
    | first cap none => omega
    | grown odd few paid linear => exact linear
  · cases h.growth with
    | first cap none => exact Or.inl cap
    | grown odd few paid linear => exact Or.inr few

end

end Mepl
