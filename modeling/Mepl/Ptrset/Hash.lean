import Mathlib.Data.Nat.Find
import Mathlib.Data.Nat.Prime.Infinite
import Mepl.Ptrset.Bst

namespace Mepl

/-- size_t, or a void pointer as uintptr_t -/
abbrev Word := BitVec 64

structure Hlink where
  next : Ptr
  hash : Word
  ptr : Word
deriving DecidableEq, Repr

/-- The table, with every link allocated for it; a freed link is none. -/
structure Hash where
  tab : List Ptr
  cap : Nat
  len : Nat
  seed : Word
  links : List (Option Hlink)
deriving DecidableEq, Repr

def hashfn (seed ptr : Word) : Word :=
  let hash := ptr ^^^ seed
  let hash := ~~~hash + (hash <<< 21)
  let hash := hash ^^^ (hash >>> 24)
  let hash := (hash + (hash <<< 3)) + (hash <<< 8)
  let hash := hash ^^^ (hash >>> 14)
  let hash := (hash + (hash <<< 2)) + (hash <<< 4)
  let hash := hash ^^^ (hash >>> 28)
  hash + (hash <<< 31)

/-- The loop of is_prime. -/
def isPrimeLoop (n m : Nat) : Bool :=
  if m * m ≤ n then
    if n % m = 0 then false else isPrimeLoop n (m + 1)
  else true
termination_by n + 1 - m
decreasing_by
  have := Nat.le_mul_self m
  omega

def isPrime (n : Nat) : Bool :=
  if n ≤ 1 then false else isPrimeLoop n 2

/-- The loop divides by everything from m up to the root of n. -/
theorem is_prime_loop_iff {n m : Nat} (hn : 2 ≤ n) (hm : 2 ≤ m) (hbelow : m ≤ n.minFac) :
    isPrimeLoop n m = true ↔ n.Prime := by
  fun_induction isPrimeLoop n m with
  | case1 m hle hmod =>
    -- a factor m with m * m ≤ n is not n itself
    have hlt : m < n := by
      have := Nat.mul_le_mul_right m hm
      omega
    have hdvd := Nat.dvd_of_mod_eq_zero hmod
    simp only [Bool.false_eq_true, false_iff]
    intro hp
    rcases (Nat.dvd_prime hp).mp hdvd with h | h <;> omega
  | case2 m hle hmod ih =>
    have hne : n.minFac ≠ m := by
      intro he
      exact hmod (Nat.mod_eq_zero_of_dvd (he ▸ Nat.minFac_dvd n))
    exact ih (by omega) (by omega)
  | case3 m hgt =>
    simp only [true_iff]
    by_contra hp
    have hsq := Nat.minFac_sq_le_self (by omega) hp
    have := Nat.mul_le_mul hbelow hbelow
    rw [Nat.pow_two] at hsq
    omega

theorem is_prime_iff (n : Nat) : isPrime n = true ↔ n.Prime := by
  unfold isPrime
  split
  · simp only [Bool.false_eq_true, false_iff]
    intro hp
    have := hp.two_le
    omega
  · have hne : n ≠ 1 := by omega
    exact is_prime_loop_iff (by omega) (Nat.le_refl 2) (Nat.minFac_prime hne).two_le

/-- The prime at which next_prime ends. -/
def primeFrom (n : Nat) : Nat := Nat.find (Nat.exists_infinite_primes n)

theorem prime_from_succ {n : Nat} (hn : ¬ isPrime n = true) :
    primeFrom (n + 1) - (n + 1) < primeFrom n - n := by
  have hspec : n ≤ primeFrom n ∧ (primeFrom n).Prime :=
    Nat.find_spec (Nat.exists_infinite_primes n)
  have hne : primeFrom n ≠ n := fun he => hn ((is_prime_iff n).mpr (he ▸ hspec.2))
  have hle : primeFrom (n + 1) ≤ primeFrom n :=
    Nat.find_min' _ ⟨by omega, hspec.2⟩
  omega

def nextPrime (n : Nat) : Nat :=
  if isPrime n then n else nextPrime (n + 1)
termination_by primeFrom n - n
decreasing_by exact prime_from_succ ‹_›

theorem next_prime_spec (n : Nat) : n ≤ nextPrime n ∧ (nextPrime n).Prime := by
  fun_induction nextPrime n with
  | case1 n hp => exact ⟨Nat.le_refl n, (is_prime_iff n).mp hp⟩
  | case2 n hp ih => exact ⟨by omega, ih.2⟩

/-- A link that has not been freed. -/
def readLink (links : List (Option Hlink)) (p : Nat) : Res Hlink := do
  match ← load links p with
  | none => .error .fault
  | some link => pure link

/-- HASH_LIST_FOR_EACH, up to the link of ptr. -/
def hashFindLoop (links : List (Option Hlink)) (ptr : Word) : Nat → Ptr → Res Ptr
  | 0, _ => .error .fuel
  | _ + 1, none => pure none
  | n + 1, some p => do
    let link ← readLink links p
    if link.ptr = ptr then pure (some p) else hashFindLoop links ptr n link.next

/-- The link of ptr in the bucket i. A chain longer than all the links would
never end. -/
def hashFind (hp : Hash) (i : Nat) (ptr : Word) : Res Ptr := do
  let head ← load hp.tab i
  hashFindLoop hp.links ptr (hp.links.length + 1) head

def hashHas (hp : Hash) (ptr : Word) : Res Bool := do
  let p ← hashFind hp ((hashfn hp.seed ptr).toNat % hp.cap) ptr
  pure p.isSome

section
variable {σ : Type}

/-- The inner loop of HASH_FOR_EACH_SAFE: next is read before the body runs. -/
def chainForEachSafe (links : σ → List (Option Hlink)) (body : σ → Nat → Res σ) :
    Nat → σ → Ptr → Nat → Res (σ × Nat)
  | 0, _, _, _ => .error .fuel
  | _ + 1, s, none, count => pure (s, count)
  | n + 1, s, some p, count => do
    let next := (← readLink (links s) p).next
    let s ← body s p
    chainForEachSafe links body n s next (count + 1)

/-- HASH_FOR_EACH_SAFE from the bucket i on, where tab is the rest of the
table: reading past its end is a fault. -/
def hashForEachSafe (links : σ → List (Option Hlink)) (body : σ → Nat → Res σ) (len : Nat) :
    List Ptr → σ → Nat → Res σ
  | tab, s, count =>
    if count < len then
      match tab with
      | [] => .error .fault
      | p :: tab => do
        let (s, count) ← chainForEachSafe links body ((links s).length + 1) s p count
        hashForEachSafe links body len tab s count
    else pure s

end

/-- The body of the loop of hash_grow, over the links and the new table. -/
def growBody (cap : Nat) (s : List (Option Hlink) × List Ptr) (p : Nat) :
    Res (List (Option Hlink) × List Ptr) := do
  let link ← readLink s.1 p
  let j := link.hash.toNat % cap
  let head ← load s.2 j
  let links ← store s.1 p (some { link with next := head })
  let tab ← store s.2 j (some p)
  pure (links, tab)

def hashGrow (hp : Hash) : Res Hash := do
  let cap := nextPrime (hp.cap * 2)
  let (links, tab) ← hashForEachSafe Prod.fst (growBody cap) hp.len hp.tab
    (hp.links, List.replicate cap none) 0
  pure { hp with links := links, tab := tab, cap := cap }

def hashNew (seed : Word) : Hash where
  tab := List.replicate (nextPrime 0) none
  cap := nextPrime 0
  len := 0
  seed := seed
  links := []

/-- hash_set; HASH_LOAD_FACTOR is three quarters. -/
def hashSet (hp : Hash) (ptr : Word) : Res Hash := do
  let hash := hashfn hp.seed ptr
  let p ← hashFind hp (hash.toNat % hp.cap) ptr
  if p.isSome then pure hp
  else do
    let hp ← (if 4 * hp.len > 3 * hp.cap then hashGrow hp else pure hp)
    let i := hash.toNat % hp.cap
    let next ← load hp.tab i
    let newln := hp.links.length
    let tab ← store hp.tab i (some newln)
    pure { hp with
      tab := tab, links := hp.links ++ [some ⟨next, hash, ptr⟩], len := hp.len + 1 }

/-- The body of the loop of hash_free, over the links and the pointers that
dtor was called with. -/
def freeBody (dtor : Bool) (s : List (Option Hlink) × List Word) (p : Nat) :
    Res (List (Option Hlink) × List Word) := do
  let link ← readLink s.1 p
  let calls := if dtor then s.2 ++ [link.ptr] else s.2
  let links ← store s.1 p none
  pure (links, calls)

/-- hash_free, where dtor tells whether there is one. -/
def hashFree (dtor : Bool) (hp : Hash) : Res (List (Option Hlink) × List Word) :=
  hashForEachSafe Prod.fst (freeBody dtor) hp.len hp.tab (hp.links, []) 0

/-- A run: hash_new, then the calls of hash_set. -/
def hashRun (seed : Word) (ptrs : List Word) : Res Hash :=
  ptrs.foldlM hashSet (hashNew seed)

end Mepl
