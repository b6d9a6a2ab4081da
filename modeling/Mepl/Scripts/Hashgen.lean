import Mepl.Lex.Grammar

namespace Mepl
open Base

structure Kvp where
  k : List Byte
  v : List Byte
deriving DecidableEq, Repr

/-- The lines getline() reads from a file. -/
def fileLines : List Byte → List (List Byte)
  | [] => []
  | b :: bs =>
    if b = 10#8 then [] :: fileLines bs
    else match fileLines bs with
      | [] => [[b]]
      | l :: ls => (b :: l) :: ls

/-- The text before the first '=' of a line, and the text after it. -/
def kvpOf (line : List Byte) : Kvp where
  k := line.takeWhile (· != 61#8)
  v := (line.dropWhile (· != 61#8)).tail

/-- The pairs of all the files; one that does not open is passed over. -/
def readKvps (files : List (Option (List Byte))) : List Kvp :=
  files.flatMap (fun f => match f with
    | none => []
    | some content => (fileLines content).map kvpOf)

/-- The hash function of hashgen, over the chars of a std::string. -/
def hashgenStrhash (s : List Byte) : BitVec 64 :=
  s.foldl (fun hash c => hash * 31#64 + BitVec.ofInt 64 (charToInt c)) 0#64

/-- One pass of the loop at again: the filled table, or none for a new cap. -/
def place (cap : Nat) : List Kvp → List (Option Kvp) → Res (Option (List (Option Kvp)))
  | [], hash => pure (some hash)
  | p :: kvps, hash => do
    let i := (hashgenStrhash p.k).toNat % cap
    match ← load hash i with
    | none => do
      let hash ← store hash i (some p)
      place cap kvps hash
    | some q => if q.k = p.k then throw (.usage "repeat key: " p.k) else pure none

def again (kvps : List Kvp) : Nat → Nat → Res (List (Option Kvp))
  | 0, _ => .error .fuel
  | n + 1, cap => do
    match ← place cap kvps (List.replicate cap none) with
    | some hash => pure hash
    | none => again kvps n (cap + 1)

/-- The table hashgen prints for its files. -/
def hashgen (fuel : Nat) (files : List (Option (List Byte))) : Res (List (Option Kvp)) :=
  again (readKvps files) fuel 1

/-- KWORDS as the compiler reads the printed table, where tt gives the value of
a type name. { NULL } leaves k_type zero. -/
def kwordsOf (tt : List Byte → Int) (table : List (Option Kvp)) : List Kword :=
  table.map (fun e => match e with
    | some p => ⟨some p.k, tt p.v⟩
    | none => ⟨none, 0⟩)

/-- The place of s in a table of cap entries. -/
def slot (cap : Nat) (s : List Byte) : Nat := (strhash s).toNat % cap

/-- The two copies of the hash function are the same function. -/
theorem hashgen_strhash (s : List Byte) : hashgenStrhash s = strhash s := rfl

/-- A pair goes to its slot when that is empty; a pair there with another key
ends the pass. -/
theorem place_cons {cap : Nat} {p : Kvp} {kvps : List Kvp} {hash : List (Option Kvp)}
    {r : Option (List (Option Kvp))} (h : place cap (p :: kvps) hash = .ok r) :
    (hash[slot cap p.k]? = some none ∧
      place cap kvps (hash.set (slot cap p.k) (some p)) = .ok r) ∨
    ∃ q, hash[slot cap p.k]? = some (some q) ∧ q.k ≠ p.k ∧ r = none := by
  have hslot : (hashgenStrhash p.k).toNat % cap = slot cap p.k := rfl
  simp only [place, hslot] at h
  rw [bind_ok] at h
  obtain ⟨e, he, h⟩ := h
  have hget := load_ok he
  cases e with
  | none =>
    left
    have hlt := (List.getElem?_eq_some_iff.mp hget).1
    simp only [store_lt hlt, ok_bind] at h
    exact ⟨hget, h⟩
  | some q =>
    right
    simp only at h
    split at h
    · cases h
    · cases h
      exact ⟨q, hget, by assumption, rfl⟩

/-- A pass that fills the table puts every pair in its slot, and changes no
other slot. -/
theorem place_some {cap : Nat} {kvps : List Kvp} {hash t : List (Option Kvp)}
    (h : place cap kvps hash = .ok (some t)) :
    t.length = hash.length ∧ ∀ i p, t[i]? = some (some p) ↔
      hash[i]? = some (some p) ∨ (p ∈ kvps ∧ slot cap p.k = i) := by
  induction kvps generalizing hash with
  | nil =>
    cases h
    simp
  | cons q kvps ih =>
    rcases place_cons h with ⟨hfree, h⟩ | ⟨_, _, _, hr⟩
    · obtain ⟨hlen, hiff⟩ := ih h
      have hlt := (List.getElem?_eq_some_iff.mp hfree).1
      refine ⟨by simpa using hlen, fun i p => ?_⟩
      rw [hiff, List.getElem?_set]
      by_cases hi : slot cap q.k = i
      · subst hi
        simp only [↓reduceIte, hlt, hfree, List.mem_cons]
        constructor
        · intro hin
          rcases hin with hp | ⟨hp, hs⟩
          · cases hp
            exact Or.inr ⟨Or.inl rfl, rfl⟩
          · exact Or.inr ⟨Or.inr hp, hs⟩
        · intro hin
          rcases hin with hp | ⟨rfl | hp, hs⟩
          · cases hp
          · exact Or.inl rfl
          · exact Or.inr ⟨hp, hs⟩
      · simp only [hi, ↓reduceIte, List.mem_cons]
        constructor
        · intro hin
          rcases hin with hp | ⟨hp, hs⟩
          · exact Or.inl hp
          · exact Or.inr ⟨Or.inr hp, hs⟩
        · intro hin
          rcases hin with hp | ⟨rfl | hp, hs⟩
          · exact Or.inl hp
          · exact absurd hs hi
          · exact Or.inr ⟨hp, hs⟩
    · cases hr

/-- No two different keywords hash to one place modulo cap. -/
def DistinctMod (kvps : List Kvp) (cap : Nat) : Prop :=
  ∀ p ∈ kvps, ∀ q ∈ kvps, slot cap p.k = slot cap q.k → p.k = q.k

/-- A pass that gives up has met two keywords in one slot. -/
theorem place_none {cap : Nat} {all kvps : List Kvp} {hash : List (Option Kvp)}
    (h : place cap kvps hash = .ok none) (hsub : ∀ p ∈ kvps, p ∈ all)
    (hput : ∀ i p, hash[i]? = some (some p) → p ∈ all ∧ slot cap p.k = i) :
    ¬ DistinctMod all cap := by
  induction kvps generalizing hash with
  | nil => cases h
  | cons q kvps ih =>
    rcases place_cons h with ⟨hfree, h⟩ | ⟨r, hr, hne, _⟩
    · apply ih h (fun p hp => hsub p (List.mem_cons_of_mem _ hp))
      intro i p hp
      rw [List.getElem?_set] at hp
      split at hp
      · rename_i hi
        split at hp
        · cases hp
          exact ⟨hsub q List.mem_cons_self, hi⟩
        · cases hp
      · exact hput i p hp
    · intro hd
      obtain ⟨hr', hs⟩ := hput _ _ hr
      exact hne (hd r hr' q (hsub q List.mem_cons_self) hs)

/-- The first size at which the keywords have places of their own. -/
def FirstFit (kvps : List Kvp) (cap : Nat) : Prop :=
  1 ≤ cap ∧ DistinctMod kvps cap ∧ ∀ c, 1 ≤ c → c < cap → ¬ DistinctMod kvps c

theorem getElem?_replicate_none {cap i : Nat} {p : Kvp} :
    (List.replicate cap (none : Option Kvp))[i]? ≠ some (some p) := by
  rw [List.getElem?_replicate]
  split <;> simp

/-- The table printed has the first size that fits, and holds exactly the
pairs, each in its slot. -/
theorem again_table {kvps : List Kvp} {fuel cap : Nat} {t : List (Option Kvp)} (hcap : 1 ≤ cap)
    (hbelow : ∀ c, 1 ≤ c → c < cap → ¬ DistinctMod kvps c) (h : again kvps fuel cap = .ok t) :
    FirstFit kvps t.length ∧
      ∀ i p, t[i]? = some (some p) ↔ p ∈ kvps ∧ slot t.length p.k = i := by
  induction fuel generalizing cap with
  | zero => cases h
  | succ n ih =>
    rw [again, bind_ok] at h
    obtain ⟨r, hr, h⟩ := h
    cases r with
    | some hash =>
      cases h
      obtain ⟨hlen, hiff⟩ := place_some hr
      rw [List.length_replicate] at hlen
      have htable : ∀ i p, t[i]? = some (some p) ↔ p ∈ kvps ∧ slot t.length p.k = i := by
        intro i p
        rw [hiff, hlen]
        simp [getElem?_replicate_none]
      refine ⟨⟨hlen ▸ hcap, ?_, hlen ▸ hbelow⟩, htable⟩
      intro p hp q hq hs
      have hpt := (htable _ p).mpr ⟨hp, hs⟩
      have hqt := (htable _ q).mpr ⟨hq, rfl⟩
      rw [hpt] at hqt
      cases hqt
      rfl
    | none =>
      apply ih (Nat.le_succ_of_le hcap) ?_ h
      intro c h1 hc
      rcases Nat.lt_or_eq_of_le (Nat.le_of_lt_succ hc) with hlt | rfl
      · exact hbelow c h1 hlt
      · exact place_none hr (fun p hp => hp) (fun i p hp => absurd hp getElem?_replicate_none)

/-- The type the keyword files give s. -/
def fileType (tt : List Byte → Int) (kvps : List Kvp) (s : List Byte) : Int :=
  match kvps.find? (fun p => p.k = s) with
  | some p => tt p.v
  | none => TT.id.val

/-- At the size hashgen chooses, some keyword has the place of s. -/
def SlotTaken (kvps : List Kvp) (s : List Byte) : Prop :=
  ∃ cap, FirstFit kvps cap ∧ ∃ p ∈ kvps, slot cap p.k = slot cap s

theorem FirstFit.unique {kvps : List Kvp} {c d : Nat} (hc : FirstFit kvps c)
    (hd : FirstFit kvps d) : c = d := by
  rcases Nat.lt_trichotomy c d with h | h | h
  · exact absurd hc.2.1 (hd.2.2 c hc.1 h)
  · exact h
  · exact absurd hd.2.1 (hc.2.2 d hd.1 h)

/-- The lookup in a printed table is defined and right exactly at the taken
slots; at the others it compares with a NULL k_id. -/
theorem lookup_table {kvps : List Kvp} {t : List (Option Kvp)} (hfit : FirstFit kvps t.length)
    (htable : ∀ i p, t[i]? = some (some p) ↔ p ∈ kvps ∧ slot t.length p.k = i)
    (tt : List Byte → Int) (s : List Byte) :
    (SlotTaken kvps s → lookup (kwordsOf tt t) s = .ok (fileType tt kvps s)) ∧
      (¬ SlotTaken kvps s → lookup (kwordsOf tt t) s = .error .fault) := by
  have hlen : (kwordsOf tt t).length = t.length := by simp [kwordsOf]
  have hlt : slot t.length s < t.length := Nat.mod_lt _ hfit.1
  have hslot : (strhash s).toNat % t.length = slot t.length s := rfl
  obtain ⟨e, he⟩ : ∃ e, t[slot t.length s]? = some e := ⟨_, List.getElem?_eq_getElem hlt⟩
  constructor
  · intro hin
    obtain ⟨cap, hcap, p, hp, hs⟩ := hin
    obtain rfl := hcap.unique hfit
    have hpt := (htable _ p).mpr ⟨hp, hs⟩
    have hload : load (kwordsOf tt t) (slot t.length s) = .ok ⟨some p.k, tt p.v⟩ := by
      simp [load, kwordsOf, hpt]
    simp only [lookup, hlen, hslot, hload, ok_bind, pure_ok]
    congr 1
    unfold fileType
    cases hf : kvps.find? (fun p => p.k = s) with
    | none =>
      have hne := List.find?_eq_none.mp hf p hp
      have hsp : ¬ s = p.k := by simpa [eq_comm] using hne
      simp only [hsp, ↓reduceIte]
    | some q =>
      have hq := List.mem_of_find?_eq_some hf
      have hqs : q.k = s := by simpa using List.find?_some hf
      -- the keyword s itself is in the slot, so it is p
      have hqt := (htable _ q).mpr ⟨hq, congrArg (slot t.length) hqs⟩
      rw [hpt] at hqt
      cases hqt
      simp only [hqs, ↓reduceIte]
  · intro hfree
    cases e with
    | some p =>
      obtain ⟨hp, hs⟩ := (htable _ p).mp he
      exact absurd ⟨_, hfit, p, hp, hs⟩ hfree
    | none =>
      have hload : load (kwordsOf tt t) (slot t.length s) = .ok ⟨none, 0⟩ := by
        simp [load, kwordsOf, he]
      simp only [lookup, hlen, hslot, hload, ok_bind, throw_error]

section
variable {σ : Type} {getc : σ → Res (Int × σ)} {R : σ → List Int → Prop}

/-- For every keyword file whose table hashgen prints and every identifier s,
id leaves the type the file gives s exactly when a keyword has the slot of s. -/
theorem keyword_lookup_iff (hserves : Serves getc BUF_EOF R)
    {files : List (Option (List Byte))} {steps : Nat} {table : List (Option Kvp)}
    (hgen : hashgen steps files = .ok table) (tt : List Byte → Int)
    {c : Byte} {s rest : List Byte} (halpha : ∀ b ∈ c :: s, isAlphaByte b = true)
    (hend : ∀ b, rest.head? = some b → isAlphaByte b = false)
    {l : Lex σ} (hl : Ready R l (codes (s ++ rest))) (hempty : l.lLex = dstrInit)
    {fuel : Nat} (hf : (s ++ rest).length + 1 < fuel) :
    (∃ l', lexId getc (kwordsOf tt table) fuel l c.toNat = .ok l' ∧
      l'.lType = fileType tt (readKvps files) (c :: s)) ↔ SlotTaken (readKvps files) (c :: s) := by
  obtain ⟨hfit, htable⟩ := again_table (Nat.le_refl 1) (fun c h1 hc => by omega) hgen
  obtain ⟨htaken, hfree⟩ := lookup_table hfit htable tt (c :: s)
  have hletters : letters (c.toNat :: codes (s ++ rest)) =
      .ok (codes (c :: s), codes ((c :: s ++ rest).dropWhile isAlphaByte).tail) := by
    have htake : (c :: s ++ rest).takeWhile isAlphaByte = c :: s := by
      rw [List.takeWhile_append_of_pos halpha]
      cases rest with
      | nil => simp
      | cons b rest => simp [hend b rfl]
    have hc := letters_codes (c :: s ++ rest)
    rwa [htake] at hc
  have halike := lexId_alike hserves (kwordsOf tt table) (c := c.toNat) hl hempty
    (by simpa [codes] using hf)
  simp only [hletters, ok_bind, text_codes] at halike
  constructor
  · intro hin
    obtain ⟨l', hrun, _⟩ := hin
    by_contra hn
    rw [hfree hn, error_bind] at halike
    rw [halike.error] at hrun
    cases hrun
  · intro ht
    rw [htaken ht] at halike
    obtain ⟨l', hrun, hleaves⟩ := halike.ok
    exact ⟨l', hrun, hleaves.type⟩

end

theorem keyword_lookup_x :
    (∃ l', lexId (fromList BUF_EOF)
        (kwordsOf (fun _ => TT.str.val) [some ⟨[115#8, 116#8, 114#8], [83#8]⟩]) 2
        ⟨dstrInit, codes ([] ++ []), TT.eof.val, 0⟩ (120#8).toNat = .ok l' ∧
      l'.lType = fileType (fun _ => TT.str.val)
        (readKvps [some [115#8, 116#8, 114#8, 61#8, 83#8]]) [120#8]) ↔
      SlotTaken (readKvps [some [115#8, 116#8, 114#8, 61#8, 83#8]]) [120#8] :=
  have hgen : hashgen 1 [some [115#8, 116#8, 114#8, 61#8, 83#8]] =
      .ok [some ⟨[115#8, 116#8, 114#8], [83#8]⟩] := by decide
  keyword_lookup_iff (from_list_serves BUF_EOF) hgen _ (by decide) (by simp) ⟨rfl, rfl⟩ rfl
    (by decide)

/-- "a=A", "c=C": the table has a hole at place 2, where "b" hashes. -/
theorem keyword_hole : ∃ table, hashgen 3 [some [97#8, 61#8, 65#8, 10#8, 99#8, 61#8, 67#8, 10#8]] =
      .ok table ∧
    lexId (fromList BUF_EOF) (kwordsOf (fun _ => TT.str.val) table) 3
      ⟨dstrInit, [], TT.eof.val, 0⟩ 98 = .error .fault :=
  ⟨[some ⟨[99#8], [67#8]⟩, some ⟨[97#8], [65#8]⟩, none], by decide, by decide⟩

end Mepl
