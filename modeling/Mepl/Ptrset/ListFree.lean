import Mepl.Ptrset.Blocks
import Mepl.Ptrset.ListBytes

namespace Mepl.ListSet
open Base

/-- The set's own block, and what its nodes lead to. -/
def Held (s : ListSet) : SetBlock → Prop
  | .set => True
  | .node np => s.Live (.inl np)
  | .kid k => s.Live (.inr k)

/-- The block that a slot is in. -/
def slotBlock : NodeSlot → SetBlock
  | .root => .set
  | .edge k => .kid k

/-- The loop of do_list_set_free: next is read before the kid is gone. -/
def freeKids (free : Freeing ListSet SetBlock → NodeSlot → Res (Freeing ListSet SetBlock)) :
    Nat → Freeing ListSet SetBlock → Ptr → Res (Freeing ListSet SetBlock)
  | 0, _, _ => .error .fuel
  | _ + 1, h, none => pure h
  | m + 1, h, some k => do
    h.use (.kid k)
    let kid ← load h.mem.kids k
    let h ← free h (.edge k)
    let h ← h.free (.kid k)
    freeKids free m h kid.next

/-- do_list_set_free -/
def doListSetFree : Nat → Freeing ListSet SetBlock → NodeSlot → Res (Freeing ListSet SetBlock)
  | 0, _, _ => .error .fuel
  | d + 1, h, npp => do
    h.use (slotBlock npp)
    match ← h.mem.readNode npp with
    | none => pure h
    | some np => do
      h.use (.node np)
      let node ← load h.mem.nodes np
      let h ← freeKids (doListSetFree d) (h.mem.kids.length + 1) h node.kids
      let h ← h.free (.node np)
      h.use (slotBlock npp)
      let s ← h.mem.writeNode npp none
      pure { h with mem := s }

/-- list_set_free. The calls are as deep as an address is long, with one for
the root and one for the NULL at the end. -/
def listSetFree (s : ListSet) : Res (Freeing ListSet SetBlock) := do
  let h ← doListSetFree (ADDR_LEN + 2) ⟨s, []⟩ .root
  h.free .set

/-- The order of the frees: a kid after the node it leads to. -/
def release (chain : Nat → List Nat) : Release Nat Nat SetBlock :=
  SetBlock.release chain

/-- A call that freed the blocks and emptied the slots. -/
structure Gives (chain : Nat → List Nat) (h : Freeing ListSet SetBlock) (blocks : List SetBlock)
    (slots : List (Trie.Slot Nat)) (h' : Freeing ListSet SetBlock) : Prop where
  freed : h'.freed = h.freed ++ blocks
  lists : Lists h'.mem chain
  nodes : h'.mem.nodes.length = h.mem.nodes.length
  kids : h'.mem.kids.length = h.mem.kids.length
  next : h'.mem.next = h.mem.next
  cut : (h.mem.trie chain).Cut (release chain) blocks slots (h'.mem.trie chain)

section
variable {s : ListSet} {chain : Nat → List Nat} {h h₁ h' : Freeing ListSet SetBlock}
  {blocks blocks' : List SetBlock} {slots slots' : List (Trie.Slot Nat)} {npp : NodeSlot} {p : Ptr}
  {ks : List Nat} {np d n : Nat}

theorem Gives.trans (h₁g : Gives chain h blocks slots h₁) (hg : Gives chain h₁ blocks' slots' h') :
    Gives chain h (blocks ++ blocks') (slots ++ slots') h' where
  freed := by rw [hg.freed, h₁g.freed, List.append_assoc]
  lists := hg.lists
  nodes := hg.nodes.trans h₁g.nodes
  kids := hg.kids.trans h₁g.kids
  next := hg.next.trans h₁g.next
  cut := h₁g.cut.trans hg.cut

theorem Lists.orders (h : Lists s chain) : (s.trie chain).Orders (release chain) where
  kids := by
    intro np k
    refine ⟨fun hk => ⟨s.chunk k, h.find_mem hk⟩, ?_⟩
    rintro ⟨c, hc⟩
    exact List.mem_of_find?_eq_some hc
  nodup := fun np => (h.held np).nodup

/-- `free(b)` -/
theorem free_gives (hl : Lists h.mem chain) {b : SetBlock} (hb : b ∉ h.freed) :
    ∃ h', h.free b = .ok h' ∧ Gives chain h [b] [] h' :=
  ⟨_, Freeing.free_held hb, rfl, hl, rfl, rfl, rfl, (Trie.Cut.refl _ _).weaken (by simp) (by simp)⟩

/-- `*npp = NULL` -/
theorem clear_gives (hl : Lists h.mem chain) (hv : h.mem.Valid npp) :
    ∃ s, h.mem.writeNode npp none = .ok s ∧ Gives chain h [] [slotOf npp] { h with mem := s } ∧
      (s.trie chain).read (slotOf npp) = none := by
  obtain ⟨s, freed⟩ := h
  cases npp with
  | root =>
    refine ⟨_, rfl, ⟨(List.append_nil _).symm, ?_, rfl, rfl, rfl, rfl, ?_, ?_, ?_⟩, rfl⟩
    · exact hl.same rfl rfl rfl (fun np hr => by cases hr) hl.edges
    · intro slot np hr
      cases slot with
      | root => cases hr
      | edge j => exact hr
    · exact fun hr => absurd (List.mem_singleton_self _) hr
    · exact fun _ _ _ => rfl
  | edge k =>
    have hk : k < s.kids.length := hv
    let s' : ListSet := { s with kids := s.kids.set k { s.kids[k] with edge := none } }
    have hnext : s'.next = s.next := funext (field_set (Option.map Kid.next) hk rfl)
    have hchunk : s'.chunk = s.chunk :=
      funext (field_set (fun kid => (kid.map Kid.v).getD 0) hk rfl)
    have hedge : ∀ j, s'.edge j = if j = k then none else s.edge j := by
      intro j
      simp only [edge, s', List.getElem?_set, hk, ↓reduceIte]
      by_cases hj : k = j
      · simp [hj]
      · simp [hj, Ne.symm hj]
    have hless : ∀ j np, s'.edge j = some np → s.edge j = some np := by
      intro j np he
      rw [hedge] at he
      split at he
      · cases he
      · exact he
    refine ⟨s', ?_, ⟨(List.append_nil _).symm, ?_, rfl, List.length_set, hnext, ?_, ?_, ?_, ?_⟩, ?_⟩
    · simp [writeNode, load_lt hk, store_lt hk, s']
    · exact hl.same rfl hnext hchunk hl.root (fun j np he => hl.edges j np (hless j np he))
    · simp only [trie, hchunk]
    · intro slot np hr
      cases slot with
      | root => exact hr
      | edge j => exact hless j np hr
    · exact fun _ => rfl
    · intro j hj _
      have hne : j ≠ k := fun he => hj (by simp [he, slotOf])
      exact (hedge j).trans (if_neg hne)
    · exact (hedge k).trans (if_pos rfl)

/-- do_list_set_free, no more than d deep, frees all that is below the slot. -/
def Frees (chain : Nat → List Nat) (d : Nat) : Prop :=
  ∀ (h : Freeing ListSet SetBlock) (npp : NodeSlot) (np : Ptr),
    Lists h.mem chain → h.mem.Valid npp → (h.mem.trie chain).read (slotOf npp) = np →
    (h.mem.trie chain).Shallow d np →
    (h.freed ++ ((h.mem.trie chain).below (release chain) d np ++ [slotBlock npp])).Nodup →
    ∃ h', doListSetFree (d + 1) h npp = .ok h' ∧
      Gives chain h ((h.mem.trie chain).below (release chain) d np) [slotOf npp] h' ∧
      (h'.mem.trie chain).read (slotOf npp) = none

/-- The loop frees every kid of the list after the node that it leads to. -/
theorem free_kids_spec (hrec : Frees chain d)
    (hl : Lists h.mem chain) (hchain : Chain h.mem.next p ks) (hks : ∀ k ∈ ks, k ∈ chain np)
    (hdeep : ∀ k ∈ ks, (h.mem.trie chain).Shallow d (h.mem.edge k)) (hn : ks.length < n)
    (hfreed : (h.freed ++
      (ks.flatMap ((h.mem.trie chain).atKid (release chain) d) ++
        (release chain).ofNode np)).Nodup) :
    ∃ h', freeKids (doListSetFree (d + 1)) n h p = .ok h' ∧ Gives chain h
      (ks.flatMap ((h.mem.trie chain).atKid (release chain) d)) (ks.map .edge) h' := by
  induction ks generalizing h p n with
  | nil =>
    cases hchain
    cases n with
    | zero => exact absurd hn (Nat.lt_irrefl 0)
    | succ n => exact ⟨h, rfl, (List.append_nil _).symm, hl, rfl, rfl, rfl, .refl _ _⟩
  | cons k ks ih =>
    obtain ⟨n, rfl⟩ : ∃ m, n = m + 1 := ⟨n - 1, by omega⟩
    have hnodup := hchain.nodup
    cases hchain with
    | cons cell rest =>
      obtain ⟨kid, hkid, rfl⟩ := Option.map_eq_some_iff.mp cell
      have hk : k < h.mem.kids.length := hl.lt (hks k List.mem_cons_self)
      have hfirst : (h.freed ++ (h.mem.trie chain).atKid (release chain) d k).Nodup := by
        rw [List.flatMap_cons, List.append_assoc, ← List.append_assoc] at hfreed
        exact (List.nodup_append'.mp hfreed).1
      have hout : SetBlock.kid k ∉
          h.freed ++ (h.mem.trie chain).below (release chain) d (h.mem.edge k) := by
        rw [Trie.atKid, ← List.append_assoc, List.nodup_append'] at hfirst
        exact fun hin => hfirst.2.2 hin (List.mem_singleton_self _)
      obtain ⟨h₁, hrun₁, hg₁, -⟩ :=
        hrec h (.edge k) _ hl hk rfl (hdeep k List.mem_cons_self) hfirst
      obtain ⟨h₂, hrun₂, hg₂⟩ := free_gives hg₁.lists (hg₁.freed ▸ hout)
      have hg : Gives chain h ((h.mem.trie chain).atKid (release chain) d k) [.edge k] h₂ :=
        hg₁.trans hg₂
      have hlater := hg.cut.later_kids hks (List.nodup_cons.mp hnodup).1
        (List.nodup_append'.mp hfreed).2.1
      have hsame := List.flatMap_congr hlater
      obtain ⟨h₃, hrun₃, hg₃⟩ := ih hg.lists (hg.next ▸ rest)
        (fun j hj => hks j (List.mem_cons_of_mem k hj))
        (fun j hj => (hdeep j (List.mem_cons_of_mem k hj)).cut hg.cut)
        (Nat.lt_of_succ_lt_succ hn) (by
          rw [hsame, hg.freed, List.append_assoc]
          simpa only [List.flatMap_cons, List.append_assoc] using hfreed)
      rw [hsame] at hg₃
      refine ⟨h₃, ?_, hg.trans hg₃⟩
      rw [freeKids, Freeing.use_held (fun hin => hout (List.mem_append_left _ hin)), ok_bind,
        load_some hkid, ok_bind, hrun₁, ok_bind, hrun₂, ok_bind, hrun₃]

/-- Freeing where there is nothing. -/
theorem frees_null (hl : Lists h.mem chain) (hv : h.mem.Valid npp)
    (hr : (h.mem.trie chain).read (slotOf npp) = none) (hslot : slotBlock npp ∉ h.freed) :
    doListSetFree (d + 1) h npp = .ok h ∧ Gives chain h [] [slotOf npp] h := by
  constructor
  · rw [doListSetFree, Freeing.use_held hslot, ok_bind, read_node chain hv, hr]
    rfl
  · exact ⟨(List.append_nil _).symm, hl, rfl, rfl, rfl,
      (Trie.Cut.refl _ _).weaken (List.nil_subset _) (fun _ hin => absurd hin List.not_mem_nil)⟩

theorem do_list_set_free_spec (chain : Nat → List Nat) (d : Nat) : Frees chain d := by
  induction d with
  | zero =>
    intro h npp np hl hv hr hdeep hfreed
    cases np with
    | none =>
      obtain ⟨hrun, hg⟩ := frees_null hl hv hr (List.append_nil h.freed ▸ Freeing.last_held hfreed)
      exact ⟨h, hrun, hg, hr⟩
    | some np => exact absurd hdeep.pos (Nat.lt_irrefl 0)
  | succ d ih =>
    intro h npp np hl hv hr hdeep hfreed
    have hslot := Freeing.last_held hfreed
    have hheld : slotBlock npp ∉ h.freed := fun hin => hslot (List.mem_append_left _ hin)
    cases np with
    | none =>
      obtain ⟨hrun, hg⟩ := frees_null hl hv hr hheld
      exact ⟨h, hrun, hg, hr⟩
    | some np =>
      have hnp := hl.read_lt hr
      have hhead : h.mem.head np = h.mem.nodes[np].kids := by simp [head, hnp]
      have hkids : ∀ k ∈ chain np, (h.mem.trie chain).Shallow d (h.mem.edge k) :=
        fun k hk => hdeep.kid (hl.find_mem hk)
      have hbelow : (h.mem.trie chain).below (release chain) (d + 1) (some np) =
          (chain np).flatMap ((h.mem.trie chain).atKid (release chain) d) ++ [.node np] := rfl
      rw [hbelow] at hfreed hslot ⊢
      rw [← List.append_assoc] at hfreed
      have hblocks := (List.nodup_append'.mp hfreed).1
      obtain ⟨h₁, hrun₁, hg₁⟩ := free_kids_spec ih hl (hhead ▸ hl.held np) (fun k hk => hk) hkids
        (Nat.lt_succ_of_le (hl.length_le np)) hblocks
      rw [← List.append_assoc, List.nodup_append'] at hblocks
      have hnode : SetBlock.node np ∉ h₁.freed := by
        rw [hg₁.freed]
        exact fun hin => hblocks.2.2 hin (List.mem_singleton_self _)
      have hheld' : SetBlock.node np ∉ h.freed := by
        rw [hg₁.freed] at hnode
        exact fun hin => hnode (List.mem_append_left _ hin)
      obtain ⟨h₂, hrun₂, hg₂⟩ := free_gives hg₁.lists hnode
      have hg := hg₁.trans hg₂
      rw [List.append_nil] at hg
      have hv₂ : h₂.mem.Valid npp := by
        cases npp with
        | root => trivial
        | edge k => exact Nat.lt_of_lt_of_eq hv hg.kids.symm
      obtain ⟨s, hrun₃, hg₃, hnull⟩ := clear_gives hg.lists hv₂
      have hend := hg.trans hg₃
      rw [List.append_nil] at hend
      refine ⟨{ h₂ with mem := s }, ?_, ⟨hend.freed, hend.lists, hend.nodes, hend.kids, hend.next,
        hend.cut.weaken (List.Subset.refl _) ?_⟩, hnull⟩
      · rw [doListSetFree, Freeing.use_held hheld, ok_bind, read_node chain hv, hr, ok_bind]
        simp only
        rw [Freeing.use_held hheld', ok_bind, load_lt hnp, ok_bind, hrun₁, ok_bind, hrun₂, ok_bind,
          Freeing.use_held (hg.freed ▸ hslot), ok_bind, hrun₃]
        rfl
      · -- the edges of the kids went with them
        intro slot hin
        rcases List.mem_append.mp hin with hin | hin
        · obtain ⟨k, hk, rfl⟩ := List.mem_map.mp hin
          refine Or.inr ⟨k, rfl, List.mem_append_left _ (List.mem_flatMap.mpr ⟨k, hk, ?_⟩)⟩
          exact List.mem_append_right _ (List.mem_singleton_self _)
        · exact Or.inl hin

theorem Lists.chain_eq {chain' : Nat → List Nat} (h : Lists s chain) (h' : Lists s chain') :
    chain = chain' :=
  funext (fun np => (h.held np).unique (h'.held np))

end

/-- What a run keeps for list_set_free: nodes are lost only where an address
is added again, kids never. -/
def RunCounts (s : ListSet) (added : List Addr) : Prop :=
  ∃ chain key, Lists s chain ∧ (s.trie chain).Ok key ∧ Bytes s ∧ Placed s chain ∧
    (s.trie chain).Keeps s.nodes.length ADDR_LEN (added.map Subtype.val) ∧
    (s.trie chain).Counts s.nodes.length (added.map Subtype.val) ∧
    ∀ np c k, (s.trie chain).kid np c = some k → (s.trie chain).Hung ADDR_LEN k

section
variable {s : ListSet} {added : List Addr}

theorem RunCounts.new : RunCounts listSetNew [] := by
  obtain ⟨chain, key, hl, hok, hb, hplaced, hkeeps⟩ := RunBytes.new
  refine ⟨chain, key, hl, hok, hb, hplaced, hkeeps, Trie.counts_nil rfl, fun np c k hk => ?_⟩
  exact absurd (hl.find_lt hk) (Nat.not_lt_zero k)

theorem RunCounts.add (h : RunCounts s added) (a : Addr) :
    ∃ s', listSetAdd s a = .ok s' ∧ RunCounts s' (added ++ [a]) := by
  obtain ⟨chain, key, hl, hok, hb, hplaced, hkeeps, hcounts, hhung⟩ := h
  have hv : s.Valid .root := trivial
  obtain ⟨s', chain', hrun, hl', hb', hplaced', hext⟩ :=
    do_list_set_add_extends a.1 hl hv hok rfl hb hplaced
  obtain ⟨s'', chain'', hrun', hl'', hadds⟩ := do_list_set_add_spec a.1 hl hv
  obtain rfl : s' = s'' := Except.ok.inj (hrun.symm.trans hrun')
  obtain rfl := hl'.chain_eq hl''
  obtain ⟨key', hok'⟩ := hext.ok
  refine ⟨s', hrun, chain', key', hl', hok', hb', hplaced', ?_, ?_, ?_⟩
  · rw [List.map_append]
    exact hkeeps.extend hext a.2
  · rw [List.map_append]
    exact hcounts.extend hkeeps hext a.2
  · exact hadds.hung hok rfl (by rw [a.2]; rfl) hhung

/-- What do_list_set_free goes through is what is live. -/
theorem mem_below_iff {chain : Nat → List Nat} (hl : Lists s chain) {d : Nat}
    (hdeep : (s.trie chain).Shallow d s.root) (b : SetBlock) :
    b ∈ (s.trie chain).below (release chain) d s.root ++ [SetBlock.set] ↔ s.Held b := by
  have hof : b ∈ (s.trie chain).below (release chain) d s.root ↔
      ∃ np, (s.trie chain).Live np ∧ (release chain).Of b np := Trie.mem_below_root hl.orders hdeep
  rw [List.mem_append, hof]
  cases b with
  | set => simp [Held]
  | node m =>
    simp only [release, SetBlock.release_node, exists_eq_right', List.mem_singleton, reduceCtorEq,
      or_false]
    exact ⟨live_node hl, fun hlive => hlive.spec hl⟩
  | kid k =>
    simp only [release, SetBlock.release_kid, List.mem_singleton, reduceCtorEq, or_false]
    refine ⟨?_, fun hlive => hlive.spec hl⟩
    rintro ⟨np, hnp, hk⟩
    exact live_kid hl (live_node hl hnp) hk

/-- Every kid is held, and so is every node but those that were cut off. -/
theorem RunCounts.held (h : RunCounts s added) :
    (∀ k, s.Held (.kid k) ↔ k < s.kids.length) ∧ ∃ live : Finset Nat,
      (∀ np, np ∈ live ↔ s.Held (.node np)) ∧
      s.nodes.length = live.card + (added.length - added.toFinset.card) := by
  obtain ⟨chain, key, hl, hok, hb, hplaced, hkeeps, ⟨live, hlive, hcard⟩, hhung⟩ := h
  have hnode : ∀ np, (s.trie chain).Live np ↔ s.Live (.inl np) :=
    fun np => ⟨live_node hl, fun hnp => hnp.spec hl⟩
  refine ⟨fun k => ⟨fun hk => ?_, fun hk => ?_⟩, live, fun np => (hlive np).trans (hnode np), ?_⟩
  · obtain ⟨np, -, hmem⟩ := Live.spec hl hk
    exact hl.lt hmem
  · obtain ⟨np, c, hkid⟩ := hplaced k hk
    obtain ⟨u, m, d, -, hm, hkm⟩ := hhung np c k hkid
    exact live_kid hl (live_node hl ⟨u, hm⟩) (List.mem_of_find?_eq_some hkm)
  · rw [Trie.card_map_to_finset Subtype.val_injective, List.length_map] at hcard
    have hle := List.toFinset_card_le added
    omega

theorem RunCounts.free (h : RunCounts s added) : ∃ h', listSetFree s = .ok h' ∧
    h'.mem.root = none ∧ Released s.nodes.length s.kids.length s.Held added h'.freed := by
  obtain ⟨hkids, live, hlive, hcount⟩ := h.held
  obtain ⟨chain, key, hl, hok, -, -, hkeeps, -⟩ := h
  have hdeep : (s.trie chain).Shallow (ADDR_LEN + 1) s.root :=
    fun u np hnp => Nat.lt_succ_of_le (hkeeps.bound u np hnp).2
  have hset : ∀ np, ¬ (release chain).Of SetBlock.set np := fun _ => SetBlock.release_set
  obtain ⟨hout, hnodup⟩ := Trie.below_then hl.orders hok hset (ADDR_LEN + 1) s.root
  obtain ⟨h₁, hrun₁, hg₁, hnull⟩ := do_list_set_free_spec chain (ADDR_LEN + 1) ⟨s, []⟩ .root s.root
    hl trivial rfl hdeep hnodup
  have hfreed : h₁.freed = (s.trie chain).below (release chain) (ADDR_LEN + 1) s.root := hg₁.freed
  refine ⟨{ h₁ with freed := h₁.freed ++ [SetBlock.set] }, ?_, hnull, ?_⟩
  · rw [listSetFree, hrun₁, ok_bind, Freeing.free_held (hfreed ▸ hout)]
  · rw [hfreed]
    exact released live trivial hkids hlive hcount hnodup (mem_below_iff hl hdeep)

end

/-- list_set_free after any adds: no block is used or freed after it was
freed, and nothing that the set holds is left. -/
theorem list_set_free_releases (adds : List Addr) :
    ∃ s h, listSetAdds adds = .ok s ∧ listSetFree s = .ok h ∧ h.mem.root = none ∧
      Released s.nodes.length s.kids.length s.Held adds h.freed := by
  obtain ⟨s, hrun, hcounts⟩ := fold_keeps (P := RunCounts) (fun a h => h.add a) adds RunCounts.new
  obtain ⟨h, hfree, hnull, hreleased⟩ := hcounts.free
  exact ⟨s, h, hrun, hfree, hnull, hreleased⟩

end Mepl.ListSet
