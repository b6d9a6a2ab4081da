import Mepl.C.Chars
import Mepl.Scripts.HashgenTable

namespace Mepl
namespace Slabtab

abbrev Key := List Byte

/-- unordered_map<size_t,string> seen -/
abbrev Seen := Nat → Option Key

/-- seen[hash] = k -/
def Seen.set (seen : Seen) (hash : Nat) (k : Key) : Seen :=
  fun i => if i = hash then some k else seen i

/-- unordered_map<string,string> vals, as its initializer has it -/
abbrev Vals := List (Key × List Byte)

def hashfn (s : Key) : BitVec 64 :=
  s.foldl (fun hash c => hash * 31#64 + BitVec.ofInt 64 (charToInt c)) 0#64

/-- hashfn(k) % hash_cap -/
def slot (cap : Nat) (k : Key) : Nat := (hashfn k).toNat % cap

/-- The loop over the keys: what it leaves in seen, or none at a slot that is
in seen already. -/
def pass (cap : Nat) : List Key → Seen → Res (Option Seen)
  | [], seen => pure (some seen)
  | k :: keys, seen =>
    if cap = 0 then .error .fault
    else
      let hash := slot cap k
      match seen hash with
      | none => pass cap keys (seen.set hash k)
      | some _ => pure none

/-- The rounds of again, from a size on; hash_cap is a size_t. -/
def again (keys : List Key) : Nat → Nat → Res (Seen × Nat)
  | 0, _ => .error .fuel
  | n + 1, cap => do
    match ← pass cap keys (fun _ => none) with
    | some seen => pure (seen, cap)
    | none => again keys n ((cap + 1) % 2 ^ 64)

/-- c_str() as %s prints it. -/
def cStr (s : List Byte) : List Byte := s.takeWhile (· != 0#8)

/-- vals[k] -/
def valsAt (vals : Vals) (k : Key) : List Byte := (vals.lookup k).getD []

/-- The rows printed for slots, with kp at the keys that are left. A row is the
text between its quotes and the one behind its comma, as they are printed: what
a C compiler makes of a backslash or a quote in them is left out. -/
def printRows (vals : Vals) (seen : Seen) : List Nat → List Key → Res (List Row)
  | [], _ => pure []
  | i :: slots, kp =>
    match seen i with
    | none => do
      let rows ← printRows vals seen slots kp
      pure (.null :: rows)
    | some _ =>
      match kp with
      | [] => .error .fault
      | k :: kp => do
        let rows ← printRows vals seen slots kp
        pure (.pair (cStr k) (cStr (valsAt vals k)) :: rows)

/-- The size of the table that is printed, and its rows. -/
def slabtab (fuel : Nat) (keys : List Key) (vals : Vals) : Res (Nat × List Row) := do
  let (seen, cap) ← again keys fuel 1
  let rows ← printRows vals seen (List.range cap) keys
  pure (cap, rows)

/-- Every key is in its slot with its value, and nothing else is in the table. -/
structure RightTable (keys : List Key) (vals : Vals) (cap : Nat) (rows : List Row) : Prop where
  size : rows.length = cap
  held : ∀ i k v, rows[i]? = some (.pair k v) ↔
    k ∈ keys ∧ vals.lookup k = some v ∧ slot cap k = i
  once : ∀ k ∈ keys, ∃! i : Nat, ∃ v, rows[i]? = some (Row.pair k v)
  others : ∀ i < cap, (∀ k ∈ keys, slot cap k ≠ i) → rows[i]? = some .null
  found : ∀ k ∈ keys, ∃ v, vals.lookup k = some v ∧ rows[slot cap k]? = some (.pair k v)

section
variable {cap c n i : Nat} {keys kp : List Key} {vals : Vals} {seen seen' : Seen} {k : Key}
  {rows : List Row} {slots : List Nat} {r : Option Seen}

/-- The keys have slots of their own, and none that is in seen. -/
def Apart (cap : Nat) (keys : List Key) (seen : Seen) : Prop :=
  (keys.map (slot cap)).Nodup ∧ ∀ k ∈ keys, seen (slot cap k) = none

theorem apart_cons : Apart cap (k :: keys) seen ↔
    seen (slot cap k) = none ∧ Apart cap keys (seen.set (slot cap k) k) := by
  have hset : (∀ q ∈ keys, seen.set (slot cap k) k (slot cap q) = none) ↔
      slot cap k ∉ keys.map (slot cap) ∧ ∀ q ∈ keys, seen (slot cap q) = none := by
    simp only [Seen.set, List.mem_map, not_exists, not_and, ← forall_and]
    refine forall₂_congr (fun q _ => ?_)
    split
    · simp [*]
    · simp [*]
  rw [Apart, Apart, hset, List.map_cons, List.nodup_cons, List.forall_mem_cons]
  tauto

theorem pass_cons (h : pass cap (k :: keys) seen = .ok r) : cap ≠ 0 ∧
    (seen (slot cap k) = none ∧ pass cap keys (seen.set (slot cap k) k) = .ok r ∨
      seen (slot cap k) ≠ none ∧ r = none) := by
  rw [pass] at h
  split at h
  · cases h
  · rename_i hcap
    refine ⟨hcap, ?_⟩
    dsimp only at h
    split at h
    · rename_i hnone
      exact Or.inl ⟨hnone, h⟩
    · rename_i q hq
      cases h
      exact Or.inr ⟨by simp [hq], rfl⟩

/-- A pass gets through when the slots are apart, and has then seen them. -/
theorem pass_ok (h : pass cap keys seen = .ok r) : (r.isSome ↔ Apart cap keys seen) ∧
    ∀ seen', r = some seen' → ∀ i,
      (seen' i).isSome ↔ (seen i).isSome ∨ i ∈ keys.map (slot cap) := by
  induction keys generalizing seen with
  | nil =>
    cases h
    simp [Apart]
  | cons k keys ih =>
    rw [apart_cons]
    rcases (pass_cons h).2 with ⟨hnone, hrest⟩ | ⟨htaken, rfl⟩
    · obtain ⟨hsome, hseen⟩ := ih hrest
      refine ⟨by rw [hsome, and_iff_right hnone], ?_⟩
      intro seen' hr i
      rw [hseen seen' hr i, Seen.set, List.map_cons, List.mem_cons]
      split
      · simp [*]
      · simp [*]
    · simp [htaken]

theorem pass_zero (h : keys ≠ []) (seen : Seen) : pass 0 keys seen = .error .fault := by
  cases keys with
  | nil => exact absurd rfl h
  | cons k keys => rfl

/-- The slots of the keys are different at this size. -/
def Perfect (keys : List Key) (n : Nat) : Prop := 1 ≤ n ∧ (keys.map (slot n)).Nodup

/-- The rounds end at the first size where they can. -/
theorem again_ok {fuel : Nat} (h : again keys fuel c = .ok (seen, cap)) (hc : 1 ≤ c)
    (hbound : c < 2 ^ 64) : c ≤ cap ∧ Perfect keys cap ∧
      (∀ n, c ≤ n → n < cap → ¬ Perfect keys n) ∧
      ∀ i, (seen i).isSome ↔ i ∈ keys.map (slot cap) := by
  induction fuel generalizing c with
  | zero => cases h
  | succ fuel ih =>
    rw [again, bind_ok] at h
    obtain ⟨r, hpass, h⟩ := h
    obtain ⟨hsome, hseen⟩ := pass_ok hpass
    have hapart : Apart c keys (fun _ => none) ↔ (keys.map (slot c)).Nodup := by
      simp [Apart]
    rw [hapart] at hsome
    cases r with
    | some seen' =>
      cases h
      refine ⟨Nat.le_refl _, ⟨hc, hsome.mp rfl⟩, ?_, ?_⟩
      · intro n hn hlt
        omega
      · intro i
        simpa using hseen seen rfl i
    | none =>
      have hnot : ¬ Perfect keys c := fun hp => by simpa using hsome.mpr hp.2
      dsimp only at h
      by_cases hwrap : c + 1 = 2 ^ 64
      · -- the size would go on at 0, where there is no remainder
        have hkeys : keys ≠ [] := by
          rintro rfl
          cases hpass
        rw [hwrap, Nat.mod_self] at h
        cases fuel with
        | zero => cases h
        | succ fuel =>
          rw [again, pass_zero hkeys] at h
          cases h
      · rw [Nat.mod_eq_of_lt (by omega)] at h
        obtain ⟨hle, hperfect, hleast, hseen'⟩ := ih h (by omega) (by omega)
        refine ⟨by omega, hperfect, ?_, hseen'⟩
        intro n hn hlt
        rcases Nat.eq_or_lt_of_le hn with rfl | hgt
        · exact hnot
        · exact hleast n hgt hlt

/-- The printer gives the slots that it finds in seen to the keys in their
order. -/
theorem print_rows (vals : Vals)
    (hlen : (slots.filter (fun i => (seen i).isSome)).length = kp.length) :
    ∃ rows, printRows vals seen slots kp = .ok rows ∧ rows.length = slots.length ∧
      (∀ i, (i, Row.null) ∈ slots.zip rows ↔ i ∈ slots ∧ seen i = none) ∧
      ∀ i a b, (i, Row.pair a b) ∈ slots.zip rows ↔
        ∃ k, (i, k) ∈ (slots.filter (fun i => (seen i).isSome)).zip kp ∧ a = cStr k ∧
          b = cStr (valsAt vals k) := by
  induction slots generalizing kp with
  | nil => exact ⟨[], rfl, rfl, by simp, by simp⟩
  | cons j slots ih =>
    cases hj : seen j with
    | none =>
      rw [List.filter_cons_of_neg (by simp [hj])] at hlen ⊢
      obtain ⟨rows, hrun, hrows, hnull, hpair⟩ := ih hlen
      refine ⟨.null :: rows, by simp [printRows, hj, hrun], by simp [hrows], ?_, ?_⟩
      · intro i
        rw [List.zip_cons_cons, List.mem_cons, List.mem_cons, hnull, or_and_right]
        apply or_congr_left
        simp only [Prod.mk.injEq, and_true]
        exact ⟨fun he => ⟨he, he ▸ hj⟩, And.left⟩
      · intro i a b
        rw [List.zip_cons_cons, List.mem_cons, hpair]
        simp
    | some q =>
      rw [List.filter_cons_of_pos (by simp [hj])] at hlen ⊢
      cases kp with
      | nil => simp at hlen
      | cons k kp =>
        obtain ⟨rows, hrun, hrows, hnull, hpair⟩ := ih (Nat.succ.inj hlen)
        refine ⟨.pair (cStr k) (cStr (valsAt vals k)) :: rows, by simp [printRows, hj, hrun],
          by simp [hrows], ?_, ?_⟩
        · intro i
          rw [List.zip_cons_cons, List.mem_cons, List.mem_cons, hnull, or_and_right]
          apply or_congr_left
          simp only [Prod.mk.injEq, reduceCtorEq, and_false, false_iff, not_and]
          rintro rfl
          simp [hj]
        · intro i a b
          rw [List.zip_cons_cons, List.mem_cons, hpair, List.zip_cons_cons]
          simp only [Prod.mk.injEq, Row.pair.injEq, List.mem_cons, or_and_right, exists_or]
          apply or_congr_left
          constructor
          · rintro ⟨rfl, rfl, rfl⟩
            exact ⟨k, ⟨rfl, rfl⟩, rfl, rfl⟩
          · rintro ⟨k', ⟨rfl, rfl⟩, rfl, rfl⟩
            exact ⟨rfl, rfl, rfl⟩

/-- The slots of the keys, as the printer comes to them. -/
theorem seen_perm (hcap : Perfect keys cap)
    (hseen : ∀ i, (seen i).isSome ↔ i ∈ keys.map (slot cap)) :
    ((List.range cap).filter (fun i => (seen i).isSome)).Perm (keys.map (slot cap)) := by
  apply (List.perm_ext_iff_of_nodup (List.nodup_range.filter _) hcap.2).mpr
  intro i
  rw [List.mem_filter, List.mem_range, hseen, and_iff_right_iff_imp]
  intro hi
  obtain ⟨k, -, rfl⟩ := List.mem_map.mp hi
  exact Nat.mod_lt _ hcap.1

/-- They are in the order of the keys when the keys are in theirs. -/
theorem seen_order (hcap : Perfect keys cap)
    (hseen : ∀ i, (seen i).isSome ↔ i ∈ keys.map (slot cap)) :
    (List.range cap).filter (fun i => (seen i).isSome) = keys.map (slot cap) ↔
      (keys.map (slot cap)).Pairwise (· < ·) := by
  have hsorted : ((List.range cap).filter (fun i => (seen i).isSome)).Pairwise (· < ·) :=
    List.pairwise_lt_range.filter _
  constructor
  · intro he
    exact he ▸ hsorted
  · intro hkeys
    apply (seen_perm hcap hseen).eq_of_pairwise _ hsorted hkeys
    intro i j _ _ hij hji
    omega

theorem mem_range_zip {r : Row} (hlen : rows.length = cap) :
    (i, r) ∈ (List.range cap).zip rows ↔ rows[i]? = some r := by
  simp only [List.mem_iff_getElem?, List.getElem?_zip_eq_some]
  constructor
  · rintro ⟨j, hj, hr⟩
    obtain ⟨hlt, he⟩ := List.getElem?_eq_some_iff.mp hj
    rw [List.getElem_range] at he
    exact he ▸ hr
  · intro hr
    have hlt := (List.getElem?_eq_some_iff.mp hr).1
    exact ⟨i, List.getElem?_range (hlen ▸ hlt), hr⟩

/-- What is printed, in terms of the slots in their order. -/
theorem slabtab_ok {fuel : Nat} (h : slabtab fuel keys vals = .ok (cap, rows)) :
    IsLeast {n | Perfect keys n} cap ∧ rows.length = cap ∧ ∃ order : List Nat,
      order.Perm (keys.map (slot cap)) ∧
      (order = keys.map (slot cap) ↔ (keys.map (slot cap)).Pairwise (· < ·)) ∧
      (∀ i, rows[i]? = some .null ↔ i < cap ∧ ∀ k ∈ keys, slot cap k ≠ i) ∧
      ∀ i a b, rows[i]? = some (.pair a b) ↔
        ∃ k, (i, k) ∈ order.zip keys ∧ a = cStr k ∧ b = cStr (valsAt vals k) := by
  rw [slabtab, bind_ok] at h
  obtain ⟨⟨seen, cap'⟩, hagain, h⟩ := h
  obtain ⟨rows', hprint, h⟩ := bind_ok.mp h
  cases h
  obtain ⟨-, hperfect, hleast, hseen⟩ := again_ok hagain (Nat.le_refl 1) (by decide)
  have hperm := seen_perm hperfect hseen
  have hlen := hperm.length_eq
  rw [List.length_map] at hlen
  obtain ⟨rows'', hrun, hrows, hnull, hpair⟩ := print_rows vals hlen
  have hsame : rows'' = rows := Except.ok.inj (hrun.symm.trans hprint)
  rw [hsame] at hrows hnull hpair
  rw [List.length_range] at hrows
  refine ⟨⟨hperfect, ?_⟩, hrows, _, hperm, seen_order hperfect hseen, ?_, ?_⟩
  · intro n hn
    by_contra hlt
    exact hleast n hn.1 (by omega) hn
  · intro i
    rw [← mem_range_zip hrows, hnull, List.mem_range, ← Option.not_isSome_iff_eq_none, hseen]
    simp
  · intro i a b
    rw [← mem_range_zip hrows, hpair]

theorem c_str_eq {s : List Byte} : cStr s = s ↔ 0#8 ∉ s := by
  rw [cStr, List.takeWhile_eq_self_iff]
  constructor
  · intro h hz
    simpa using h _ hz
  · intro h c hc
    simp only [bne_iff_ne]
    exact fun he => h (he ▸ hc)

theorem c_str_no_nul (s : List Byte) : 0#8 ∉ cStr s := by
  intro hz
  simpa using List.mem_takeWhile_imp hz

/-- No key, and no value of one, is cut short when it is printed. -/
def Printable (keys : List Key) (vals : Vals) : Prop :=
  ∀ k ∈ keys, 0#8 ∉ k ∧ ∀ v, vals.lookup k = some v → 0#8 ∉ v

theorem vals_at {v : List Byte} (h : vals.lookup k = some v) : valsAt vals k = v := by
  rw [valsAt, h, Option.getD_some]

theorem RightTable.printable (h : RightTable keys vals cap rows)
    (hpair : ∀ (i : Nat) a b, rows[i]? = some (Row.pair a b) → 0#8 ∉ a ∧ 0#8 ∉ b) :
    Printable keys vals := by
  intro k hk
  obtain ⟨v, hv, hrow⟩ := h.found k hk
  obtain ⟨hnk, hnv⟩ := hpair _ k v hrow
  refine ⟨hnk, ?_⟩
  intro w hw
  rw [hv] at hw
  cases hw
  exact hnv

/-- Where each key is in its slot, the slots are in the order of the keys. -/
theorem order_of_slots {order : List Nat} (hlen : order.length = keys.length)
    (h : ∀ i k, (i, k) ∈ order.zip keys → slot cap k = i) : order = keys.map (slot cap) := by
  calc order = (order.zip keys).map Prod.fst := (List.map_fst_zip (Nat.le_of_eq hlen)).symm
    _ = (order.zip keys).map (fun p => slot cap p.2) :=
      List.map_congr_left (fun p hp => (h p.1 p.2 hp).symm)
    _ = ((order.zip keys).map Prod.snd).map (slot cap) := by rw [List.map_map]; rfl
    _ = keys.map (slot cap) := by rw [List.map_snd_zip (Nat.le_of_eq hlen.symm)]

theorem mem_slots_zip : (i, k) ∈ (keys.map (slot cap)).zip keys ↔ k ∈ keys ∧ slot cap k = i := by
  have hzip : (keys.map (slot cap)).zip keys = keys.map (fun k => (slot cap k, k)) := by
    conv_lhs => rw [← List.map_id keys, List.map_map, List.zip_map']
    rfl
  rw [hzip, List.mem_map]
  constructor
  · rintro ⟨q, hq, he⟩
    cases he
    exact ⟨hq, rfl⟩
  · rintro ⟨hk, rfl⟩
    exact ⟨k, hk, rfl⟩

/-- A printed table in which every slot got its own key. -/
theorem right_table (hvals : ∀ k ∈ keys, (vals.lookup k).isSome) (hprint : Printable keys vals)
    (hrows : rows.length = cap)
    (hnull : ∀ i, rows[i]? = some .null ↔ i < cap ∧ ∀ k ∈ keys, slot cap k ≠ i)
    (hpair : ∀ i a b, rows[i]? = some (.pair a b) ↔
      ∃ k, (i, k) ∈ (keys.map (slot cap)).zip keys ∧ a = cStr k ∧ b = cStr (valsAt vals k)) :
    RightTable keys vals cap rows := by
  have held : ∀ i k v, rows[i]? = some (.pair k v) ↔
      k ∈ keys ∧ vals.lookup k = some v ∧ slot cap k = i := by
    intro i k v
    simp only [hpair, mem_slots_zip]
    have hown : ∀ q ∈ keys,
        ∃ w, vals.lookup q = some w ∧ cStr q = q ∧ cStr (valsAt vals q) = w := by
      intro q hq
      obtain ⟨w, hw⟩ := Option.isSome_iff_exists.mp (hvals q hq)
      obtain ⟨hnq, hnw⟩ := hprint q hq
      rw [vals_at hw]
      exact ⟨w, hw, c_str_eq.mpr hnq, c_str_eq.mpr (hnw w hw)⟩
    constructor
    · rintro ⟨q, ⟨hq, hi⟩, rfl, rfl⟩
      obtain ⟨w, hw, hcq, hcw⟩ := hown q hq
      rw [hcq, hcw]
      exact ⟨hq, hw, hi⟩
    · rintro ⟨hk, hv, hi⟩
      obtain ⟨w, hw, hck, hcw⟩ := hown k hk
      rw [hv] at hw
      cases hw
      exact ⟨k, ⟨hk, hi⟩, hck.symm, hcw.symm⟩
  have found : ∀ k ∈ keys, ∃ v, vals.lookup k = some v ∧
      rows[slot cap k]? = some (.pair k v) := by
    intro k hk
    obtain ⟨v, hv⟩ := Option.isSome_iff_exists.mp (hvals k hk)
    exact ⟨v, hv, (held _ k v).mpr ⟨hk, hv, rfl⟩⟩
  refine ⟨hrows, held, ?_, fun i hi hfree => (hnull i).mpr ⟨hi, hfree⟩, found⟩
  intro k hk
  obtain ⟨v, -, hrow⟩ := found k hk
  refine ⟨slot cap k, ⟨v, hrow⟩, ?_⟩
  rintro i ⟨w, hi⟩
  exact ((held i k w).mp hi).2.2.symm

/-- The table is right when the keys are given in the order of their slots at
the least size where these are different, and none of the strings is cut. -/
theorem slabtab_right_iff {fuel : Nat} (hvals : ∀ k ∈ keys, (vals.lookup k).isSome)
    (hrun : slabtab fuel keys vals = .ok (cap, rows)) : RightTable keys vals cap rows ↔
      Printable keys vals ∧
        ∃ n, IsLeast {n | Perfect keys n} n ∧ (keys.map (slot n)).Pairwise (· < ·) := by
  obtain ⟨hleast, hrows, order, hperm, horder, hnull, hpair⟩ := slabtab_ok hrun
  constructor
  · intro h
    have hprint : Printable keys vals := by
      apply h.printable
      intro i a b hrow
      obtain ⟨k, -, rfl, rfl⟩ := (hpair i a b).mp hrow
      exact ⟨c_str_no_nul k, c_str_no_nul _⟩
    refine ⟨hprint, cap, hleast, horder.mp (order_of_slots ?_ ?_)⟩
    · rw [hperm.length_eq, List.length_map]
    · intro i k hik
      have hck := c_str_eq.mpr (hprint k (List.of_mem_zip hik).2).1
      have hrow := (hpair i k _).mpr ⟨k, hik, hck.symm, rfl⟩
      exact ((h.held i k _).mp hrow).2.2
  · rintro ⟨hprint, n, hleast', hsorted⟩
    obtain rfl := hleast'.unique hleast
    rw [horder.mpr hsorted] at hpair
    exact right_table hvals hprint hrows hnull hpair

end

/-- For keys b and a, in the order of their slots 0 and 1. -/
theorem slabtab_right_ba : RightTable [chars "b", chars "a"]
      [(chars "b", chars "B"), (chars "a", chars "A")] 2
      [.pair (chars "b") (chars "B"), .pair (chars "a") (chars "A")] ↔
    Printable [chars "b", chars "a"] [(chars "b", chars "B"), (chars "a", chars "A")] ∧
      ∃ n, IsLeast {n | Perfect [chars "b", chars "a"] n} n ∧
        ([chars "b", chars "a"].map (slot n)).Pairwise (· < ·) := by
  have hrun : slabtab 2 [chars "b", chars "a"]
      [(chars "b", chars "B"), (chars "a", chars "A")] =
        .ok (2, [.pair (chars "b") (chars "B"), .pair (chars "a") (chars "A")]) := by decide
  exact slabtab_right_iff (by decide) hrun

/-- The two keys of the generator itself: each is printed in the other's slot. -/
theorem slabtab_swapped : ∃ rows, slabtab 3 [chars "AST_VAR_DEF", chars "AST_STR"]
      [(chars "AST_VAR_DEF", chars "&avd.base"), (chars "AST_STR", chars "&ss.base")] =
        .ok (3, rows) ∧
    ¬ RightTable [chars "AST_VAR_DEF", chars "AST_STR"]
      [(chars "AST_VAR_DEF", chars "&avd.base"), (chars "AST_STR", chars "&ss.base")] 3 rows := by
  refine ⟨[.pair (chars "AST_VAR_DEF") (chars "&avd.base"),
    .pair (chars "AST_STR") (chars "&ss.base"), .null], by decide, ?_⟩
  intro h
  have hslot := ((h.held 0 (chars "AST_VAR_DEF") (chars "&avd.base")).mp rfl).2.2
  exact absurd hslot (by decide)

end Slabtab
end Mepl
