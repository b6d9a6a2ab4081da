import Mepl.Ptrset.HashWalk

namespace Mepl
open Base

/-- What a link keeps when it is moved to another table. -/
def keyAt (links : List (Option Hlink)) (k : Nat) : Option (Word × Word) :=
  (linkAt links k).map (fun link => (link.hash, link.ptr))

def ptrAt (links : List (Option Hlink)) (k : Nat) : Option Word :=
  (linkAt links k).map Hlink.ptr

/-- A table of cap buckets, with every link in the bucket of its hash. -/
structure Buckets (links : List (Option Hlink)) (tab : List Ptr) (cap : Nat)
    (chains : List (List Nat)) : Prop where
  length : tab.length = cap
  held : ChainsOf links tab chains
  slot : ∀ i ks, chains[i]? = some ks → ∀ k ∈ ks, ∃ link, linkAt links k = some link ∧
    link.hash.toNat % cap = i

/-- The table is as it should be: chains holds the links of every bucket. -/
structure HashOk (hp : Hash) (chains : List (List Nat)) : Prop where
  buckets : Buckets hp.links hp.tab hp.cap chains
  prime : hp.cap.Prime
  links : chains.flatten.Perm (List.range hp.links.length)
  hashed : ∀ k link, linkAt hp.links k = some link → link.hash = hashfn hp.seed link.ptr
  distinct : (chains.flatten.map (ptrAt hp.links)).Nodup
  len : hp.len = chains.flatten.length
  load : 4 * hp.len ≤ 3 * hp.cap + 4

section
variable {links links' : List (Option Hlink)} {tab : List Ptr} {cap i j k : Nat} {link : Hlink}
  {chains : List (List Nat)} {ks : List Nat} {head : Ptr}

theorem ptr_at_eq (links : List (Option Hlink)) (k : Nat) :
    ptrAt links k = (keyAt links k).map Prod.snd := by
  unfold ptrAt keyAt
  cases linkAt links k <;> rfl

theorem flatten_push (h : chains[j]? = some ks) :
    (chains.set j (k :: ks)).flatten.Perm (k :: chains.flatten) := by
  induction chains generalizing j with
  | nil => cases h
  | cons xs chains ih =>
    cases j with
    | zero =>
      cases h
      exact List.Perm.refl _
    | succ j =>
      have hrest : chains[j]? = some ks := h
      exact ((ih hrest).append_left xs).trans List.perm_middle

theorem mem_flatten_of_get (h : chains[i]? = some ks) (hk : k ∈ ks) : k ∈ chains.flatten :=
  List.mem_flatten.mpr ⟨ks, List.mem_of_getElem? h, hk⟩

namespace Buckets

theorem chains_length (h : Buckets links tab cap chains) : chains.length = cap :=
  h.held.length_eq.symm.trans h.length

theorem chain (h : Buckets links tab cap chains) (hi : i < cap) : ∃ head ks,
    tab[i]? = some head ∧ chains[i]? = some ks ∧ Chain (nextLink links) head ks := by
  have ht : i < tab.length := h.length ▸ hi
  have hc : i < chains.length := h.chains_length.symm ▸ hi
  exact ⟨tab[i], chains[i], List.getElem?_eq_getElem ht, List.getElem?_eq_getElem hc,
    (List.forall₂_iff_get.mp h.held).2 i ht hc⟩

theorem live (h : Buckets links tab cap chains) (hk : k ∈ chains.flatten) :
    ∃ link, linkAt links k = some link := by
  obtain ⟨ks, hks, hk⟩ := List.mem_flatten.mp hk
  obtain ⟨i, hi⟩ := List.mem_iff_getElem?.mp hks
  obtain ⟨link, hlink, -⟩ := h.slot i ks hi k hk
  exact ⟨link, hlink⟩

/-- A table as ZALLOC leaves it. -/
theorem new (links : List (Option Hlink)) (cap : Nat) :
    Buckets links (List.replicate cap none) cap (List.replicate cap []) where
  length := List.length_replicate
  held := by
    rw [ChainsOf, List.forall₂_iff_get]
    refine ⟨by simp, fun i h1 h2 => ?_⟩
    simp only [List.get_eq_getElem, List.getElem_replicate]
    exact .nil
  slot := by
    intro i ks hks k hk
    obtain rfl := List.eq_of_mem_replicate (List.mem_of_getElem? hks)
    cases hk

/-- A link pushed on the chain of its bucket. -/
theorem push (h : Buckets links tab cap chains) (hhead : tab[j]? = some head)
    (hks : chains[j]? = some ks) (hk : linkAt links' k = some link) (hnext : link.next = head)
    (hslot : link.hash.toNat % cap = j)
    (hsame : ∀ q ∈ chains.flatten, linkAt links' q = linkAt links q) :
    Buckets links' (tab.set j (some k)) cap (chains.set j (k :: ks)) where
  length := by rw [List.length_set, h.length]
  held := by
    have hold := ChainsOf.congr h.held hsame
    rw [ChainsOf, List.forall₂_iff_get] at hold ⊢
    refine ⟨by rw [List.length_set, List.length_set, hold.1], fun i h1 h2 => ?_⟩
    rw [List.length_set] at h1 h2
    have hi := hold.2 i h1 h2
    simp only [List.get_eq_getElem, List.getElem_set] at hi ⊢
    split
    · rename_i he
      subst he
      have hcell : nextLink links' k = some head := by rw [nextLink, hk, ← hnext]; rfl
      have htj : tab[j] = head := by rwa [List.getElem?_eq_getElem h1, Option.some_inj] at hhead
      have hcj : chains[j] = ks := by rwa [List.getElem?_eq_getElem h2, Option.some_inj] at hks
      rw [htj, hcj] at hi
      exact .cons hcell hi
    · exact hi
  slot := by
    intro i xs hxs q hq
    have hold : ∀ ys, chains[i]? = some ys → q ∈ ys → ∃ link, linkAt links' q = some link ∧
        link.hash.toNat % cap = i := by
      intro ys hys hqy
      rw [hsame q (mem_flatten_of_get hys hqy)]
      exact h.slot i ys hys q hqy
    rw [List.getElem?_set] at hxs
    split at hxs
    · rename_i he
      subst he
      split at hxs
      · cases hxs
        rcases List.mem_cons.mp hq with rfl | hq
        · exact ⟨link, hk, hslot⟩
        · exact hold ks hks hq
      · cases hxs
    · exact hold xs hxs hq

end Buckets

end

section
variable {links : List (Option Hlink)} {tab : List Ptr} {cap k : Nat} {link : Hlink}
  {chains : List (List Nat)} {todo : List Nat} {s s' : List (Option Hlink) × List Ptr}

theorem grow_body_eq (hlink : linkAt s.1 k = some link) {head : Ptr}
    (hhead : s.2[link.hash.toNat % cap]? = some head) : growBody cap s k =
      .ok (s.1.set k (some { link with next := head }),
        s.2.set (link.hash.toNat % cap) (some k)) := by
  have hlt := (List.getElem?_eq_some_iff.mp hhead).1
  simp [growBody, read_link hlink, load_some hhead, store_lt (link_at_lt hlink), store_lt hlt]

theorem grow_body_touches_own : TouchesOwn Prod.fst (growBody cap) := by
  intro s k s' h
  simp only [growBody, bind_ok] at h
  obtain ⟨link, hlink, head, hhead, links, hstore, tab, -, h⟩ := h
  cases h
  obtain ⟨-, rfl⟩ := store_ok hstore
  exact ⟨List.length_set, fun q hq => link_at_set_ne _ hq⟩

/-- The loop of hash_grow puts every link it runs on in its bucket of the new
table. The links keep their hashes and their pointers. -/
theorem grow_fold (hcap : 0 < cap) (h : Buckets s.1 s.2 cap chains) (hnodup : todo.Nodup)
    (hfresh : ∀ k ∈ todo, k ∉ chains.flatten)
    (hlive : ∀ k ∈ todo, ∃ link, linkAt s.1 k = some link) :
    ∃ s' chains', todo.foldlM (growBody cap) s = .ok s' ∧ Buckets s'.1 s'.2 cap chains' ∧
      chains'.flatten.Perm (todo ++ chains.flatten) ∧ s'.1.length = s.1.length ∧
      ∀ k, keyAt s'.1 k = keyAt s.1 k := by
  induction todo generalizing s chains with
  | nil => exact ⟨s, chains, rfl, h, List.Perm.refl _, rfl, fun _ => rfl⟩
  | cons k todo ih =>
    obtain ⟨hk, hnodup⟩ := List.nodup_cons.mp hnodup
    obtain ⟨link, hlink⟩ := hlive k List.mem_cons_self
    obtain ⟨head, ks, hhead, hks, -⟩ := h.chain (Nat.mod_lt link.hash.toNat hcap)
    have hbody := grow_body_eq hlink hhead
    have hlt := link_at_lt hlink
    have hother : ∀ q, q ≠ k → linkAt (s.1.set k (some { link with next := head })) q =
        linkAt s.1 q := fun q hq => link_at_set_ne _ hq
    have hpush := h.push hhead hks (link_at_set (some { link with next := head }) hlt) rfl rfl
      (fun q hq => hother q (fun he => hfresh k List.mem_cons_self (he ▸ hq)))
    have hperm := flatten_push (k := k) hks
    have hfresh' : ∀ q ∈ todo, q ∉ (chains.set (link.hash.toNat % cap) (k :: ks)).flatten := by
      intro q hq hin
      rcases List.mem_cons.mp (hperm.mem_iff.mp hin) with rfl | hin
      · exact hk hq
      · exact hfresh q (List.mem_cons_of_mem _ hq) hin
    have hlive' : ∀ q ∈ todo, ∃ l, linkAt (s.1.set k (some { link with next := head })) q =
        some l := by
      intro q hq
      rw [hother q (fun he => hk (he ▸ hq))]
      exact hlive q (List.mem_cons_of_mem _ hq)
    obtain ⟨s', chains', hrun, hb, hp, hlen, hkey⟩ := ih (s := (_, _)) hpush hnodup hfresh' hlive'
    refine ⟨s', chains', ?_, hb, ?_, ?_, fun q => ?_⟩
    · rw [List.foldlM_cons, hbody]
      exact hrun
    · exact hp.trans ((hperm.append_left todo).trans List.perm_middle)
    · rw [hlen, List.length_set]
    · rw [hkey]
      by_cases hq : q = k
      · subst hq
        simp [keyAt, link_at_set _ hlt, hlink]
      · rw [keyAt, hother q hq, ← keyAt]

end

section
variable {hp hp' : Hash} {chains chains' : List (List Nat)} {links : List (Option Hlink)}
  {ptr : Word} {k n : Nat} {p : Ptr} {ks : List Nat}

/-- The pointers in the table. -/
def ptrsOf (links : List (Option Hlink)) (chains : List (List Nat)) : List (Option Word) :=
  chains.flatten.map (ptrAt links)

theorem HashOk.nodup (h : HashOk hp chains) : chains.flatten.Nodup :=
  h.links.nodup_iff.mpr List.nodup_range

theorem HashOk.key (h : HashOk hp chains) {hash : Word} (hk : keyAt hp.links k = some (hash, ptr)) :
    hash = hashfn hp.seed ptr := by
  obtain ⟨link, hlink, he⟩ := Option.map_eq_some_iff.mp hk
  cases he
  exact h.hashed k link hlink

/-- HASH_FOR_EACH_SAFE runs a body once on every link. -/
theorem HashOk.walk {σ : Type} {links : σ → List (Option Hlink)} {body : σ → Nat → Res σ}
    (h : HashOk hp chains) (ho : TouchesOwn links body) {s : σ} (hs : links s = hp.links) :
    hashForEachSafe links body hp.len hp.tab s 0 = chains.flatten.foldlM body s := by
  apply hash_for_each_safe ho _ h.nodup
  · rw [Nat.zero_add, h.len]
  · rw [hs]
    exact h.buckets.held

/-- hash_grow moves every link to a table with room for another. -/
theorem hash_grow_spec (h : HashOk hp chains) : ∃ hp' chains', hashGrow hp = .ok hp' ∧
    HashOk hp' chains' ∧ 4 * hp'.len ≤ 3 * hp'.cap ∧ hp'.seed = hp.seed ∧
    (ptrsOf hp'.links chains').Perm (ptrsOf hp.links chains) := by
  obtain ⟨hcap, hprime⟩ := next_prime_spec (hp.cap * 2)
  obtain ⟨s', chains', hrun, hb, hperm, hlen, hkey⟩ := grow_fold (s := (_, _)) hprime.pos
    (.new hp.links _) h.nodup (by simp) (fun k hk => h.buckets.live hk)
  have howns : TouchesOwn Prod.fst (growBody (nextPrime (hp.cap * 2))) := grow_body_touches_own
  have hwalk := h.walk howns (s := (hp.links, List.replicate (nextPrime (hp.cap * 2)) none)) rfl
  rw [List.flatten_replicate_nil, List.append_nil] at hperm
  have hptr : ptrAt s'.1 = ptrAt hp.links := by
    funext k
    rw [ptr_at_eq, ptr_at_eq, hkey]
  have hptrs := hperm.map (ptrAt hp.links)
  have htwo := h.prime.two_le
  have hload := h.load
  refine ⟨{ hp with links := s'.1, tab := s'.2, cap := nextPrime (hp.cap * 2) }, chains', ?_,
    ⟨hb, hprime, ?_, ?_, ?_, ?_, ?_⟩, ?_, rfl, ?_⟩
  · rw [hashGrow, hwalk, hrun]
    rfl
  · rw [hlen]
    exact hperm.trans h.links
  · intro k link hlink
    have hk : keyAt s'.1 k = some (link.hash, link.ptr) := by rw [keyAt, hlink]; rfl
    rw [hkey] at hk
    exact h.key hk
  · rw [hptr]
    exact hptrs.nodup_iff.mpr h.distinct
  · rw [hperm.length_eq]
    exact h.len
  · simp only
    omega
  · simp only
    omega
  · rw [ptrsOf, hptr]
    exact hptrs

theorem hash_find_loop (h : Chain (nextLink links) p ks) (hfuel : ks.length < n) :
    hashFindLoop links ptr n p = .ok (ks.find? (fun k => ptrAt links k = some ptr)) := by
  induction ks generalizing n p with
  | nil =>
    cases h
    cases n with
    | zero => exact absurd hfuel (Nat.lt_irrefl 0)
    | succ n => rfl
  | cons k ks ih =>
    cases h with
    | cons cell rest =>
      cases n with
      | zero => exact absurd hfuel (Nat.not_lt_zero _)
      | succ n =>
        obtain ⟨link, hlink, rfl⟩ := Option.map_eq_some_iff.mp cell
        rw [hashFindLoop, read_link hlink, ok_bind, ih rest (Nat.lt_of_succ_lt_succ hfuel),
          List.find?_cons]
        have hptr : ptrAt links k = some link.ptr := by rw [ptrAt, hlink]; rfl
        by_cases he : link.ptr = ptr <;> simp [hptr, he]

/-- The search meets the link of ptr exactly when the table has one: it can
only be in this bucket. -/
theorem hash_find_spec (h : HashOk hp chains) (ptr : Word) :
    ∃ r, hashFind hp ((hashfn hp.seed ptr).toNat % hp.cap) ptr = .ok r ∧
      (r.isSome = true ↔ some ptr ∈ ptrsOf hp.links chains) := by
  obtain ⟨head, ks, hhead, hks, hchain⟩ :=
    h.buckets.chain (Nat.mod_lt (hashfn hp.seed ptr).toNat h.prime.pos)
  have hfuel := Nat.lt_succ_of_le (chain_length_le hchain)
  refine ⟨ks.find? (fun k => ptrAt hp.links k = some ptr), ?_, ?_⟩
  · rw [hashFind, load_some hhead, ok_bind, hash_find_loop hchain hfuel]
  · rw [List.find?_isSome, ptrsOf, List.mem_map]
    constructor
    · intro hin
      obtain ⟨k, hk, hptr⟩ := hin
      exact ⟨k, mem_flatten_of_get hks hk, of_decide_eq_true hptr⟩
    · intro hin
      obtain ⟨k, hk, hptr⟩ := hin
      obtain ⟨xs, hxs, hk⟩ := List.mem_flatten.mp hk
      obtain ⟨i, hi⟩ := List.mem_iff_getElem?.mp hxs
      obtain ⟨link, hlink, hslot⟩ := h.buckets.slot i xs hi k hk
      have hlptr : link.ptr = ptr := by
        rw [ptrAt, hlink] at hptr
        exact Option.some_inj.mp hptr
      rw [h.hashed k link hlink, hlptr] at hslot
      rw [hslot, hi, Option.some_inj] at hks
      exact ⟨k, hks ▸ hk, decide_eq_true hptr⟩

/-- A new link for ptr in front of its chain. -/
theorem HashOk.push (h : HashOk hp chains) (hroom : 4 * hp.len ≤ 3 * hp.cap)
    (hnew : some ptr ∉ ptrsOf hp.links chains) :
    ∃ next chains', hp.tab[(hashfn hp.seed ptr).toNat % hp.cap]? = some next ∧
      HashOk { hp with
        tab := hp.tab.set ((hashfn hp.seed ptr).toNat % hp.cap) (some hp.links.length)
        links := hp.links ++ [some ⟨next, hashfn hp.seed ptr, ptr⟩]
        len := hp.len + 1 } chains' ∧
      ∀ q, some q ∈ ptrsOf (hp.links ++ [some ⟨next, hashfn hp.seed ptr, ptr⟩]) chains' ↔
        some q ∈ ptrsOf hp.links chains ∨ q = ptr := by
  obtain ⟨next, ks, hnext, hks, -⟩ :=
    h.buckets.chain (Nat.mod_lt (hashfn hp.seed ptr).toNat h.prime.pos)
  have hmem : ∀ k, k ∈ chains.flatten ↔ k < hp.links.length := fun k => by
    rw [h.links.mem_iff, List.mem_range]
  have hlast : linkAt (hp.links ++ [some ⟨next, hashfn hp.seed ptr, ptr⟩]) hp.links.length =
      some ⟨next, hashfn hp.seed ptr, ptr⟩ := by
    simp [linkAt]
  have hold : ∀ k ∈ chains.flatten,
      linkAt (hp.links ++ [some ⟨next, hashfn hp.seed ptr, ptr⟩]) k = linkAt hp.links k := by
    intro k hk
    rw [linkAt, linkAt, List.getElem?_append_left ((hmem k).mp hk)]
  have hperm := flatten_push (k := hp.links.length) hks
  have hptrs : (ptrsOf (hp.links ++ [some ⟨next, hashfn hp.seed ptr, ptr⟩])
      (chains.set ((hashfn hp.seed ptr).toNat % hp.cap) (hp.links.length :: ks))).Perm
      (some ptr :: ptrsOf hp.links chains) := by
    refine (hperm.map _).trans ?_
    have hhead : ptrAt (hp.links ++ [some ⟨next, hashfn hp.seed ptr, ptr⟩]) hp.links.length =
        some ptr := by
      rw [ptrAt, hlast]
      rfl
    have htail : chains.flatten.map (ptrAt (hp.links ++ [some ⟨next, hashfn hp.seed ptr, ptr⟩])) =
        chains.flatten.map (ptrAt hp.links) :=
      List.map_congr_left (fun k hk => by rw [ptrAt, hold k hk, ← ptrAt])
    rw [List.map_cons, hhead, htail]
    exact List.Perm.refl _
  have hlen := hperm.length_eq
  have hload := h.load
  refine ⟨next, _, hnext,
    ⟨h.buckets.push hnext hks hlast rfl rfl hold, h.prime, ?_, ?_, ?_, ?_, ?_⟩, fun q => ?_⟩
  · rw [List.length_append, List.length_singleton, List.range_succ]
    exact hperm.trans ((h.links.cons _).trans (List.perm_append_singleton _ _).symm)
  · intro k link hlink
    rcases Nat.lt_or_ge k hp.links.length with hlt | hge
    · rw [hold k ((hmem k).mpr hlt)] at hlink
      exact h.hashed k link hlink
    · have hk := link_at_lt hlink
      rw [List.length_append, List.length_singleton] at hk
      obtain rfl : k = hp.links.length := by omega
      rw [hlast] at hlink
      cases hlink
      rfl
  · exact hptrs.nodup_iff.mpr (List.nodup_cons.mpr ⟨hnew, h.distinct⟩)
  · rw [hlen, List.length_cons, ← h.len]
  · simp only
    omega
  · rw [hptrs.mem_iff, List.mem_cons, Option.some_inj, or_comm]

/-- hash_set keeps the table as it should be, with ptr among its pointers. -/
theorem hash_set_spec (h : HashOk hp chains) (ptr : Word) :
    ∃ hp' chains', hashSet hp ptr = .ok hp' ∧ HashOk hp' chains' ∧
      ∀ q, some q ∈ ptrsOf hp'.links chains' ↔
      some q ∈ ptrsOf hp.links chains ∨ q = ptr := by
  obtain ⟨r, hfind, hr⟩ := hash_find_spec h ptr
  rw [hashSet]
  simp only [hfind, ok_bind]
  by_cases hin : r.isSome = true
  · refine ⟨hp, chains, by rw [if_pos hin]; rfl, h, fun q => ⟨Or.inl, ?_⟩⟩
    intro hq
    rcases hq with hq | rfl
    · exact hq
    · exact hr.mp hin
  · obtain ⟨hp1, chains1, hrun1, h1, hroom, hseed, hptrs⟩ : ∃ hp1 chains1,
        (if 4 * hp.len > 3 * hp.cap then hashGrow hp else pure hp) = .ok hp1 ∧
        HashOk hp1 chains1 ∧ 4 * hp1.len ≤ 3 * hp1.cap ∧ hp1.seed = hp.seed ∧
        (ptrsOf hp1.links chains1).Perm (ptrsOf hp.links chains) := by
      split
      · exact hash_grow_spec h
      · exact ⟨hp, chains, rfl, h, by omega, rfl, List.Perm.refl _⟩
    have hnew : some ptr ∉ ptrsOf hp1.links chains1 := by
      rw [hptrs.mem_iff, ← hr]
      exact hin
    obtain ⟨next, chains2, hnext, h2, hmem⟩ := h1.push hroom hnew
    have hlt := (List.getElem?_eq_some_iff.mp hnext).1
    refine ⟨_, chains2, ?_, h2, fun q => ?_⟩
    · rw [if_neg hin, hrun1]
      simp only [ok_bind, ← hseed, load_some hnext, store_lt hlt, pure_ok]
    · rw [hmem q, hptrs.mem_iff]

theorem hash_has_spec (h : HashOk hp chains) (ptr : Word) :
    hashHas hp ptr = .ok (decide (some ptr ∈ ptrsOf hp.links chains)) := by
  obtain ⟨r, hfind, hr⟩ := hash_find_spec h ptr
  rw [hashHas, hfind, ok_bind, pure_ok]
  congr 1
  rw [Bool.eq_iff_iff, hr, decide_eq_true_iff]

theorem hash_new_ok (seed : Word) : HashOk (hashNew seed) (List.replicate (nextPrime 0) []) where
  buckets := .new [] _
  prime := (next_prime_spec 0).2
  links := by simp [hashNew]
  hashed := by simp [hashNew, linkAt]
  distinct := by simp
  len := by simp [hashNew]
  load := by simp [hashNew]

/-- The table is in order, and has exactly the pointers that were set. -/
def HashHolds (hp : Hash) (added : List Word) : Prop :=
  ∃ chains, HashOk hp chains ∧ ∀ q, some q ∈ ptrsOf hp.links chains ↔ q ∈ added

theorem hash_new_holds (seed : Word) : HashHolds (hashNew seed) [] :=
  ⟨_, hash_new_ok seed, by simp [ptrsOf]⟩

theorem HashHolds.set {added : List Word} (h : HashHolds hp added) (ptr : Word) :
    ∃ hp', hashSet hp ptr = .ok hp' ∧ HashHolds hp' (added ++ [ptr]) := by
  obtain ⟨chains, hok, hadded⟩ := h
  obtain ⟨hp', chains', hrun, hok', hmem⟩ := hash_set_spec hok ptr
  refine ⟨hp', hrun, chains', hok', fun q => ?_⟩
  rw [hmem q, hadded q, List.mem_append, List.mem_singleton]

end

section
variable {τ : Type} {hp : Hash} {chains : List (List Nat)} {k : Nat} {ks log : List Nat}
  {body : List (Option Hlink) × τ → Nat → Res (List (Option Hlink) × τ)}
  {s s' : List (Option Hlink) × τ}

/-- The body, and a log of the links it was run on. -/
def logged (body : List (Option Hlink) × τ → Nat → Res (List (Option Hlink) × τ))
    (s : (List (Option Hlink) × τ) × List Nat) (p : Nat) :
    Res ((List (Option Hlink) × τ) × List Nat) := do
  let s' ← body s.1 p
  pure (s', s.2 ++ [p])

/-- The traversal of the table with the body comes to its end in s', and runs
the body exactly once on every link. -/
def VisitsEach (hp : Hash) (body : List (Option Hlink) × τ → Nat → Res (List (Option Hlink) × τ))
    (t : τ) (s' : List (Option Hlink) × τ) : Prop :=
  ∃ visited, hashForEachSafe (fun s => s.1.1) (logged body) hp.len hp.tab ((hp.links, t), []) 0 =
    .ok (s', visited) ∧ visited.Perm (List.range hp.links.length)

/-- hash_grow runs its loop once on every link, and puts them into a table that
is as it should be. -/
def GrowsOnce (hp : Hash) : Prop :=
  ∃ hp' chains', hashGrow hp = .ok hp' ∧ HashOk hp' chains' ∧
    (∀ p, hashHas hp' p = hashHas hp p) ∧
    VisitsEach hp (growBody hp'.cap) (List.replicate hp'.cap none) (hp'.links, hp'.tab)

/-- hash_free runs its loop once on every link, and leaves none of them. -/
def FreesOnce (hp : Hash) (dtor : Bool) : Prop :=
  ∃ s', hashFree dtor hp = .ok s' ∧ (∀ k, linkAt s'.1 k = none) ∧
    VisitsEach hp (freeBody dtor) [] s'

theorem logged_touches_own (ho : TouchesOwn Prod.fst body) :
    TouchesOwn (fun s => s.1.1) (logged body) := by
  intro s k s' h
  rw [logged, bind_ok] at h
  obtain ⟨s1, h1, h⟩ := h
  cases h
  exact ho s.1 k s1 h1

theorem fold_logged (h : ks.foldlM body s = .ok s') :
    ks.foldlM (logged body) (s, log) = .ok (s', log ++ ks) := by
  induction ks generalizing s log with
  | nil =>
    cases h
    rw [List.append_nil]
    rfl
  | cons k ks ih =>
    rw [List.foldlM_cons, bind_ok] at h
    obtain ⟨s1, h1, h⟩ := h
    have hrest : ks.foldlM (logged body) (s1, log ++ [k]) = .ok (s', log ++ [k] ++ ks) := ih h
    rw [List.append_assoc] at hrest
    rw [List.foldlM_cons, logged, h1]
    exact hrest

theorem HashOk.visits_each (h : HashOk hp chains) (ho : TouchesOwn Prod.fst body) {t : τ}
    (hrun : chains.flatten.foldlM body (hp.links, t) = .ok s') :
    hashForEachSafe Prod.fst body hp.len hp.tab (hp.links, t) 0 = .ok s' ∧
      VisitsEach hp body t s' := by
  refine ⟨(h.walk ho rfl).trans hrun, chains.flatten, ?_, h.links⟩
  rw [h.walk (logged_touches_own ho) rfl, fold_logged hrun, List.nil_append]

theorem HashOk.grows_once (h : HashOk hp chains) : GrowsOnce hp := by
  obtain ⟨s', -, hfold, -⟩ := grow_fold (s := (_, _)) (next_prime_spec (hp.cap * 2)).2.pos
    (.new hp.links _) h.nodup (by simp) (fun k hk => h.buckets.live hk)
  obtain ⟨hwalk, hvisits⟩ := h.visits_each grow_body_touches_own hfold
  obtain ⟨hp', chains', hgrow, h', -, -, hptrs⟩ := hash_grow_spec h
  refine ⟨hp', chains', hgrow, h', fun p => ?_, ?_⟩
  · rw [hash_has_spec h' p, hash_has_spec h p]
    simp only [hptrs.mem_iff]
  · rw [hashGrow, hwalk] at hgrow
    cases hgrow
    exact hvisits

theorem free_body_touches_own {dtor : Bool} : TouchesOwn Prod.fst (freeBody dtor) := by
  intro s k s' h
  simp only [freeBody, bind_ok] at h
  obtain ⟨link, -, links, hstore, h⟩ := h
  cases h
  obtain ⟨-, rfl⟩ := store_ok hstore
  exact ⟨List.length_set, fun q hq => link_at_set_ne _ hq⟩

theorem free_fold {dtor : Bool} {s : List (Option Hlink) × List Word} (hnodup : ks.Nodup)
    (hlive : ∀ k ∈ ks, ∃ link, linkAt s.1 k = some link) :
    ∃ s', ks.foldlM (freeBody dtor) s = .ok s' ∧ ∀ k ∈ ks, linkAt s'.1 k = none := by
  induction ks generalizing s with
  | nil => exact ⟨s, rfl, fun k hk => absurd hk List.not_mem_nil⟩
  | cons k ks ih =>
    obtain ⟨hk, hnodup⟩ := List.nodup_cons.mp hnodup
    obtain ⟨link, hlink⟩ := hlive k List.mem_cons_self
    have hlive' : ∀ q ∈ ks, ∃ l, linkAt (s.1.set k none) q = some l := by
      intro q hq
      have hne : q ≠ k := fun he => hk (he ▸ hq)
      rw [link_at_set_ne none hne]
      exact hlive q (List.mem_cons_of_mem _ hq)
    obtain ⟨s', hrun, hgone⟩ :=
      ih (s := (s.1.set k none, if dtor then s.2 ++ [link.ptr] else s.2)) hnodup hlive'
    refine ⟨s', ?_, fun q hq => ?_⟩
    · rw [List.foldlM_cons, freeBody, read_link hlink]
      simp only [ok_bind, store_lt (link_at_lt hlink), pure_ok]
      exact hrun
    · rcases List.mem_cons.mp hq with rfl | hq
      · rw [(free_body_touches_own.fold hrun).2 q hk]
        exact link_at_set none (link_at_lt hlink)
      · exact hgone q hq

theorem HashOk.frees_once (h : HashOk hp chains) (dtor : Bool) : FreesOnce hp dtor := by
  obtain ⟨s', hfold, hgone⟩ : ∃ s', chains.flatten.foldlM (freeBody dtor) (hp.links, []) = .ok s' ∧
      ∀ k ∈ chains.flatten, linkAt s'.1 k = none :=
    free_fold h.nodup (fun k hk => h.buckets.live hk)
  obtain ⟨hwalk, hvisits⟩ := h.visits_each free_body_touches_own hfold
  refine ⟨s', hwalk, fun k => ?_, hvisits⟩
  by_cases hk : k ∈ chains.flatten
  · exact hgone k hk
  · have hge : hp.links.length ≤ k := by
      rw [h.links.mem_iff, List.mem_range] at hk
      exact Nat.le_of_not_lt hk
    rw [(free_body_touches_own.fold hfold).2 k hk]
    simp [linkAt, List.getElem?_eq_none hge]

/-- The table of hash is a set of pointers, after any calls of hash_set: its
chains are in order, hash_has finds exactly what was set, and hash_grow and
hash_free meet every link once. -/
theorem hash_is_set (seed : Word) (ptrs : List Word) : ∃ hp chains, hashRun seed ptrs = .ok hp ∧
    HashOk hp chains ∧ (∀ p, hashHas hp p = .ok (decide (p ∈ ptrs))) ∧
    GrowsOnce hp ∧ ∀ dtor, FreesOnce hp dtor := by
  obtain ⟨hp, hrun, chains, h, hmem⟩ :=
    fold_keeps (P := HashHolds) (fun ptr h => h.set ptr) ptrs (hash_new_holds seed)
  rw [List.nil_append] at hmem
  refine ⟨hp, chains, hrun, h, fun p => ?_, h.grows_once, h.frees_once⟩
  rw [hash_has_spec h p]
  simp only [hmem]

end

end Mepl
