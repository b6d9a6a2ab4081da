import Mepl.C.Free
import Mepl.Ptrset.HashGrowth

namespace Mepl
open Base

/-- What ZALLOC returned to a hash. -/
inductive HashBlock where
  | hash
  | tab (t : Nat)
  | link (k : Nat)
deriving DecidableEq, Repr

/-- The hash, with the number of tables it had before this one. -/
structure HashMem where
  hp : Hash
  old : Nat
deriving DecidableEq, Repr

def HashMem.allocated (m : HashMem) : List HashBlock :=
  .hash :: ((List.range (m.old + 1)).map .tab ++ (List.range m.hp.links.length).map .link)

abbrev HashHeap := Freeing HashMem HashBlock

namespace HashHeap

def new (seed : Word) : HashHeap := ⟨⟨hashNew seed, 0⟩, []⟩

/-- hash_grow, which gives the old table back when all of its links are in the
new one. -/
def hashGrow (h : HashHeap) : Res HashHeap := do
  h.use (.tab h.mem.old)
  let hp ← Mepl.hashGrow h.mem.hp
  let h ← h.free (.tab h.mem.old)
  pure { h with mem := ⟨hp, h.mem.old + 1⟩ }

def hashSet (h : HashHeap) (ptr : Word) : Res HashHeap := do
  h.use .hash
  h.use (.tab h.mem.old)
  let hash := hashfn h.mem.hp.seed ptr
  let p ← hashFind h.mem.hp (hash.toNat % h.mem.hp.cap) ptr
  if p.isSome then pure h
  else do
    let h ← (if 4 * h.mem.hp.len > 3 * h.mem.hp.cap then hashGrow h else pure h)
    let hp := h.mem.hp
    let i := hash.toNat % hp.cap
    h.use (.tab h.mem.old)
    let next ← load hp.tab i
    let newln := hp.links.length
    let tab ← store hp.tab i (some newln)
    let hp := { hp with
      tab := tab, links := hp.links ++ [some ⟨next, hash, ptr⟩], len := hp.len + 1 }
    pure { h with mem := { h.mem with hp := hp } }

/-- The body of the loop of hash_free, with the pointers dtor was called with. -/
def freeLink (dtor : Bool) (s : HashHeap × List Word) (p : Nat) : Res (HashHeap × List Word) := do
  let link ← readLink s.1.mem.hp.links p
  let calls := if dtor then s.2 ++ [link.ptr] else s.2
  let h ← s.1.free (.link p)
  let links ← store h.mem.hp.links p none
  pure ({ h with mem := { h.mem with hp := { h.mem.hp with links := links } } }, calls)

def hashFree (dtor : Bool) (h : HashHeap) : Res (HashHeap × List Word) := do
  h.use .hash
  h.use (.tab h.mem.old)
  let (h, calls) ← hashForEachSafe (fun s => s.1.mem.hp.links) (freeLink dtor) h.mem.hp.len
    h.mem.hp.tab (h, []) 0
  let h ← h.free (.tab h.mem.old)
  let h ← h.free .hash
  pure (h, calls)

/-- The tables before this one were given back, and nothing else. -/
def Kept (h : HashHeap) : Prop := h.freed = (List.range h.mem.old).map .tab

section
variable {h : HashHeap} {hp : Hash} {ptr : Word} {k : Nat} {ks : List Nat}
  {chains : List (List Nat)}

theorem Kept.hash (hk : h.Kept) : HashBlock.hash ∉ h.freed := by
  rw [hk]
  simp

theorem Kept.tab (hk : h.Kept) : HashBlock.tab h.mem.old ∉ h.freed := by
  rw [hk]
  simp

theorem Kept.link (hk : h.Kept) : HashBlock.link k ∉ h.freed := by
  rw [hk]
  simp

theorem Kept.grow (hk : h.Kept) (hgrow : Mepl.hashGrow h.mem.hp = .ok hp) :
    ∃ h', h.hashGrow = .ok h' ∧ h'.Kept ∧ h'.mem.hp = hp := by
  refine ⟨⟨⟨hp, h.mem.old + 1⟩, h.freed ++ [.tab h.mem.old]⟩, ?_, ?_, rfl⟩
  · simp only [hashGrow, Freeing.use_held hk.tab, hgrow, Freeing.free_held hk.tab, ok_bind,
      pure_ok]
  · rw [Kept, List.range_succ, List.map_append, ← hk]
    rfl

/-- hash_set works on no block that was given back. -/
theorem Kept.set (hk : h.Kept) (hset : Mepl.hashSet h.mem.hp ptr = .ok hp) :
    ∃ h', h.hashSet ptr = .ok h' ∧ h'.Kept ∧ h'.mem.hp = hp := by
  simp only [Mepl.hashSet, bind_ok] at hset
  obtain ⟨p, hfind, hset⟩ := hset
  simp only [hashSet, Freeing.use_held hk.hash, Freeing.use_held hk.tab, hfind, ok_bind]
  by_cases hin : p.isSome = true
  · rw [if_pos hin] at hset ⊢
    cases hset
    exact ⟨h, rfl, hk, rfl⟩
  · rw [if_neg hin] at hset ⊢
    obtain ⟨hp1, hgrow, hset⟩ := bind_ok.mp hset
    obtain ⟨h1, hrun1, hk1, rfl⟩ : ∃ h1 : HashHeap,
        (if 4 * h.mem.hp.len > 3 * h.mem.hp.cap then h.hashGrow else pure h) = .ok h1 ∧
          h1.Kept ∧ h1.mem.hp = hp1 := by
      split at hgrow
      · rename_i hheavy
        rw [if_pos hheavy]
        exact hk.grow hgrow
      · rename_i hlight
        rw [if_neg hlight]
        cases hgrow
        exact ⟨h, rfl, hk, rfl⟩
    simp only [bind_ok] at hset
    obtain ⟨next, hnext, tab, hstore, hset⟩ := hset
    cases hset
    let hp2 : Hash := { h1.mem.hp with
      tab := tab, links := h1.mem.hp.links ++ [some ⟨next, hashfn h.mem.hp.seed ptr, ptr⟩]
      len := h1.mem.hp.len + 1 }
    refine ⟨⟨⟨hp2, h1.mem.old⟩, h1.freed⟩, ?_, hk1, rfl⟩
    simp only [hrun1, ok_bind, Freeing.use_held hk1.tab, hnext]
    rw [hstore]
    rfl

theorem free_link_touches_own (dtor : Bool) :
    TouchesOwn (fun s : HashHeap × List Word => s.1.mem.hp.links) (freeLink dtor) := by
  intro s k s' h
  simp only [freeLink, bind_ok] at h
  obtain ⟨link, -, h1, hfree, links, hstore, h⟩ := h
  cases h
  rw [Freeing.free] at hfree
  split at hfree
  · cases hfree
  · cases hfree
    obtain ⟨-, rfl⟩ := store_ok hstore
    exact ⟨List.length_set, fun q hq => link_at_set_ne _ hq⟩

/-- The loop of hash_free gives back the links it runs on, and calls dtor with
their pointers. -/
theorem free_link_fold (dtor : Bool) {s : HashHeap × List Word} (hnodup : ks.Nodup)
    (hlive : ∀ k ∈ ks, ∃ link, linkAt s.1.mem.hp.links k = some link)
    (hheld : ∀ k ∈ ks, HashBlock.link k ∉ s.1.freed) :
    ∃ s', ks.foldlM (freeLink dtor) s = .ok s' ∧ s'.1.freed = s.1.freed ++ ks.map .link ∧
      s'.1.mem.old = s.1.mem.old ∧
      s'.2.map some = s.2.map some ++ (if dtor then ks.map (ptrAt s.1.mem.hp.links) else []) := by
  induction ks generalizing s with
  | nil => exact ⟨s, rfl, by simp, rfl, by simp⟩
  | cons k ks ih =>
    obtain ⟨hk, hnodup⟩ := List.nodup_cons.mp hnodup
    obtain ⟨link, hlink⟩ := hlive k List.mem_cons_self
    have hother : ∀ q ∈ ks, linkAt (s.1.mem.hp.links.set k none) q =
        linkAt s.1.mem.hp.links q :=
      fun q hq => link_at_set_ne none (fun he => hk (he ▸ hq))
    let h1 : HashHeap := ⟨{ s.1.mem with
      hp := { s.1.mem.hp with links := s.1.mem.hp.links.set k none } }, s.1.freed ++ [.link k]⟩
    let calls := if dtor then s.2 ++ [link.ptr] else s.2
    have hlive1 : ∀ q ∈ ks, ∃ l, linkAt h1.mem.hp.links q = some l := by
      intro q hq
      rw [hother q hq]
      exact hlive q (List.mem_cons_of_mem _ hq)
    have hheld1 : ∀ q ∈ ks, HashBlock.link q ∉ h1.freed := by
      intro q hq hin
      rcases List.mem_append.mp hin with hin | hin
      · exact hheld q (List.mem_cons_of_mem _ hq) hin
      · cases List.mem_singleton.mp hin
        exact hk hq
    obtain ⟨s', hrun, hfreed, hold, hcalls⟩ := ih (s := (h1, calls)) hnodup hlive1 hheld1
    refine ⟨s', ?_, ?_, hold, ?_⟩
    · rw [List.foldlM_cons, freeLink, read_link hlink]
      simp only [ok_bind, Freeing.free_held (hheld k List.mem_cons_self),
        store_lt (link_at_lt hlink), pure_ok]
      exact hrun
    · rw [hfreed, List.append_assoc]
      rfl
    · have hptrs : ks.map (ptrAt h1.mem.hp.links) = ks.map (ptrAt s.1.mem.hp.links) :=
        List.map_congr_left (fun q hq => by rw [ptrAt, hother q hq, ← ptrAt])
      have hptr : ptrAt s.1.mem.hp.links k = some link.ptr := by rw [ptrAt, hlink]; rfl
      rw [hcalls, hptrs]
      cases dtor <;> simp [calls, hptr]

/-- The whole of hash_free, on a table that is in order. -/
theorem Kept.free (hk : h.Kept) (hok : HashOk h.mem.hp chains) (dtor : Bool) :
    ∃ h' calls, h.hashFree dtor = .ok (h', calls) ∧ h'.freed.Perm h.mem.allocated ∧
      calls.map some = if dtor then ptrsOf h.mem.hp.links chains else [] := by
  obtain ⟨s', hrun, hfreed, hold, hcalls⟩ := free_link_fold dtor (s := (h, []))
    hok.nodup (fun k hk => hok.buckets.live hk) (fun k _ => hk.link)
  have hwalk := hok.walk (free_link_touches_own dtor) (s := (h, [])) rfl
  have htab : HashBlock.tab s'.1.mem.old ∉ s'.1.freed := by
    rw [hfreed, hold, hk]
    simp
  let h1 : HashHeap := ⟨s'.1.mem, s'.1.freed ++ [.tab s'.1.mem.old]⟩
  have hhash : HashBlock.hash ∉ h1.freed := by
    have hheld := hk.hash
    simp [h1, hfreed, hheld]
  refine ⟨⟨s'.1.mem, s'.1.freed ++ [.tab s'.1.mem.old] ++ [.hash]⟩, s'.2, ?_, ?_, ?_⟩
  · simp only [hashFree, Freeing.use_held hk.hash, Freeing.use_held hk.tab, hwalk, hrun,
      ok_bind, Freeing.free_held htab]
    rw [Freeing.free_held hhash]
    rfl
  · -- the tables and the links, and last the table of the end and the hash
    have hlinks : (chains.flatten.map HashBlock.link).Perm
        ((List.range h.mem.hp.links.length).map .link) := hok.links.map _
    rw [hfreed, hold, hk, HashMem.allocated, List.range_succ, List.map_append]
    refine (List.perm_append_singleton _ _).trans (.cons _ ?_)
    rw [List.append_assoc, List.append_assoc]
    refine List.Perm.append_left _ ?_
    exact List.perm_append_comm.trans (hlinks.append_left _)
  · rw [hcalls]
    rfl

end

end HashHeap

/-- The calls of hash_set on a new hash, with the tables given back on the way. -/
def hashHeapRun (seed : Word) (ptrs : List Word) : Res HashHeap :=
  ptrs.foldlM HashHeap.hashSet (.new seed)

/-- The run is the run of hash_set, with no block used after it was freed. -/
structure HashHeap.Runs (seed : Word) (h : HashHeap) (added : List Word) : Prop where
  kept : h.Kept
  run : hashRun seed added = .ok h.mem.hp
  holds : HashHolds h.mem.hp added

theorem HashHeap.Runs.set {seed : Word} {h : HashHeap} {added : List Word} (ptr : Word)
    (hr : HashHeap.Runs seed h added) : ∃ h', h.hashSet ptr = .ok h' ∧
      HashHeap.Runs seed h' (added ++ [ptr]) := by
  obtain ⟨hp, hset, hholds⟩ := hr.holds.set ptr
  obtain ⟨h', hrun, hkept, rfl⟩ := hr.kept.set hset
  refine ⟨h', hrun, hkept, ?_, hholds⟩
  rw [hashRun, List.foldlM_append, ← hashRun, hr.run, ok_bind, List.foldlM_cons, hset]
  rfl

/-- hash_free after any calls of hash_set: every block that the run allocated,
old tables included, was given back once, and dtor was called once with every
pointer that was set. -/
theorem hash_free_releases (seed : Word) (ptrs : List Word) (dtor : Bool) : ∃ h h' calls,
    hashHeapRun seed ptrs = .ok h ∧ hashRun seed ptrs = .ok h.mem.hp ∧
    h.hashFree dtor = .ok (h', calls) ∧ h'.freed.Perm h.mem.allocated ∧
    calls.Perm (if dtor then ptrs.dedup else []) := by
  have hnew : HashHeap.Runs seed (.new seed) [] := ⟨rfl, rfl, hash_new_holds seed⟩
  obtain ⟨h, hrun, hr⟩ := fold_keeps (fun ptr hr => hr.set ptr) ptrs hnew
  rw [List.nil_append] at hr
  obtain ⟨chains, hok, hmem⟩ := hr.holds
  obtain ⟨h', calls, hfree, hfreed, hcalls⟩ := hr.kept.free hok dtor
  refine ⟨h, h', calls, hrun, hr.run, hfree, hfreed, ?_⟩
  cases dtor with
  | false => exact .of_eq (List.map_eq_nil_iff.mp hcalls)
  | true =>
    have hperm : (calls.map some).Perm (ptrs.dedup.map some) := by
      rw [hcalls]
      exact hok.ptrs_perm hmem
    exact (List.map_perm_map_iff (Option.some_injective Word)).mp hperm

end Mepl
