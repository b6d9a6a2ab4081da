import Mepl.Ptrset.Blocks
import Mepl.Ptrset.FixsetBytes

namespace Mepl.Fixset
open Base

/-- The set's own block, and the nodes that it leads to. -/
def Held (s : Fixset) : SetBlock → Prop
  | .set => True
  | .node np => s.Live np
  | .kid _ => False

/-- The block that a slot is in. -/
def slotBlock : NodeSlot → SetBlock
  | .root => .set
  | .kid np _ => .node np

/-- The chunks from 0 to FIXSET_SIZE. -/
def chunks : List PtrT := List.finRange (2 ^ 16)

theorem mem_chunks (c : PtrT) : c ∈ chunks := List.mem_finRange c

theorem nodup_chunks : chunks.Nodup := List.nodup_finRange _

attribute [irreducible] chunks

/-- do_fixset_free -/
def doFixsetFree : Nat → Freeing Fixset SetBlock → NodeSlot → Res (Freeing Fixset SetBlock)
  | 0, _, _ => .error .fuel
  | d + 1, h, npp => do
    h.use (slotBlock npp)
    match ← h.mem.readNode npp with
    | none => pure h
    | some np => do
      let h ← chunks.foldlM (fun h c => doFixsetFree d h (.kid np c)) h
      let h ← h.free (.node np)
      h.use (slotBlock npp)
      let s ← h.mem.writeNode npp none
      pure { h with mem := s }

/-- fixset_free. The calls are as deep as an address is long, with one for the
root and one for the NULL at the end. -/
def fixsetFree (s : Fixset) : Res (Freeing Fixset SetBlock) := do
  let h ← doFixsetFree (ADDR_LEN + 2) ⟨s, []⟩ .root
  h.free .set

/-- The order of the frees: a node after those in all of its slots. -/
def release : Release Nat (Nat × PtrT) SetBlock where
  order := fun np => chunks.map (Prod.mk np)
  ofKid := fun _ => []
  ofNode := fun np => [.node np]
  holder := fun k => .node k.1
  kid_nodup := fun _ => List.nodup_nil
  node_nodup := SetBlock.node_nodup
  kid_owner := fun _ _ _ hk => absurd hk List.not_mem_nil
  node_owner := SetBlock.node_owner
  apart := fun _ _ _ hk => absurd hk List.not_mem_nil
  held := by
    intro np k hk
    obtain ⟨c, -, rfl⟩ := List.mem_map.mp hk
    exact Or.inr (List.mem_singleton_self _)

/-- A call that freed the blocks and emptied the slots. -/
structure Gives (h : Freeing Fixset SetBlock) (blocks : List SetBlock)
    (slots : List (Trie.Slot (Nat × PtrT))) (h' : Freeing Fixset SetBlock) : Prop where
  freed : h'.freed = h.freed ++ blocks
  linked : Linked h'.mem
  nodes : h'.mem.nodes.length = h.mem.nodes.length
  cut : h.mem.trie.Cut release blocks slots h'.mem.trie

section
variable {s : Fixset} {h h₁ h' : Freeing Fixset SetBlock} {blocks blocks' : List SetBlock}
  {slots slots' : List (Trie.Slot (Nat × PtrT))} {npp : NodeSlot} {cs : List PtrT} {np d : Nat}

theorem Gives.trans (h₁g : Gives h blocks slots h₁) (hg : Gives h₁ blocks' slots' h') :
    Gives h (blocks ++ blocks') (slots ++ slots') h' where
  freed := by rw [hg.freed, h₁g.freed, List.append_assoc]
  linked := hg.linked
  nodes := hg.nodes.trans h₁g.nodes
  cut := h₁g.cut.trans hg.cut

theorem orders (s : Fixset) : s.trie.Orders release where
  kids := by
    intro np k
    refine List.mem_map.trans (exists_congr (fun c => ?_))
    rw [and_iff_right (mem_chunks c)]
    exact Option.some_inj.symm
  nodup := fun np => nodup_chunks.map (fun _ _ he => (Prod.mk.inj he).2)

/-- `free(b)` -/
theorem free_gives (hl : Linked h.mem) {b : SetBlock} (hb : b ∉ h.freed) :
    ∃ h', h.free b = .ok h' ∧ Gives h [b] [] h' :=
  ⟨_, Freeing.free_held hb, rfl, hl, rfl, (Trie.Cut.refl _ _).weaken (by simp) (by simp)⟩

/-- `*npp = NULL` -/
theorem clear_gives (hl : Linked h.mem) (hv : h.mem.Valid npp) :
    ∃ s, h.mem.writeNode npp none = .ok s ∧ Gives h [] [slotOf npp] { h with mem := s } ∧
      s.trie.read (slotOf npp) = none := by
  obtain ⟨s, freed⟩ := h
  cases npp with
  | root =>
    refine ⟨_, rfl, ⟨(List.append_nil _).symm, ⟨fun np hr => ?_, hl.kids⟩, rfl, rfl, ?_, ?_, ?_⟩,
      rfl⟩
    · cases hr
    · intro slot np hr
      cases slot with
      | root => cases hr
      | edge j => exact hr
    · exact fun hr => absurd (List.mem_singleton_self _) hr
    · exact fun _ _ _ => rfl
  | kid n c =>
    have hn : n < s.nodes.length := hv
    let s' : Fixset := { s with nodes := s.nodes.set n ⟨Function.update s.nodes[n].kids c none⟩ }
    have hkid : ∀ k, s'.kid k = if k = (n, c) then none else s.kid k := by
      intro k
      obtain ⟨m, e⟩ := k
      by_cases hm : m = n
      · subst hm
        by_cases he : e = c <;> simp [s', hn, he, kid]
      · simp [s', hm, Ne.symm hm, kid]
    have hless : ∀ k np, s'.kid k = some np → s.kid k = some np := by
      intro k np he
      rw [hkid] at he
      split at he
      · cases he
      · exact he
    have hlen : s'.nodes.length = s.nodes.length := List.length_set
    refine ⟨s', ?_, ⟨(List.append_nil _).symm, ⟨?_, ?_⟩, hlen, rfl, ?_, ?_, ?_⟩, ?_⟩
    · simp [writeNode, load_lt hn, store_lt hn, s']
    · exact fun np hr => Nat.lt_of_lt_of_eq (hl.root np hr) hlen.symm
    · exact fun k np he => Nat.lt_of_lt_of_eq (hl.kids k np (hless k np he)) hlen.symm
    · intro slot np hr
      cases slot with
      | root => exact hr
      | edge j => exact hless j np hr
    · exact fun _ => rfl
    · intro j hj _
      have hne : j ≠ (n, c) := fun he => hj (by simp [he, slotOf])
      exact (hkid j).trans (if_neg hne)
    · exact (hkid (n, c)).trans (if_pos rfl)

/-- do_fixset_free, no more than d deep, frees all that is below the slot. -/
def Frees (d : Nat) : Prop :=
  ∀ (h : Freeing Fixset SetBlock) (npp : NodeSlot) (np : Ptr), Linked h.mem → h.mem.Valid npp →
    h.mem.trie.read (slotOf npp) = np → h.mem.trie.Shallow d np →
    (h.freed ++ (h.mem.trie.below release d np ++ [slotBlock npp])).Nodup →
    ∃ h', doFixsetFree (d + 1) h npp = .ok h' ∧
      Gives h (h.mem.trie.below release d np) [slotOf npp] h' ∧
      h'.mem.trie.read (slotOf npp) = none

/-- The loop frees what is below every slot of the node. -/
theorem free_slots_spec (hrec : Frees d) (hl : Linked h.mem) (hnp : np < h.mem.nodes.length)
    (hcs : cs.Nodup) (hdeep : ∀ c, h.mem.trie.Shallow d (h.mem.kid (np, c)))
    (hfreed : (h.freed ++ ((cs.map (Prod.mk np)).flatMap (h.mem.trie.atKid release d) ++
      release.ofNode np)).Nodup) :
    ∃ h', cs.foldlM (fun h c => doFixsetFree (d + 1) h (.kid np c)) h = .ok h' ∧
      Gives h ((cs.map (Prod.mk np)).flatMap (h.mem.trie.atKid release d))
        (cs.map (fun c => .edge (np, c))) h' := by
  induction cs generalizing h with
  | nil => exact ⟨h, rfl, (List.append_nil _).symm, hl, rfl, .refl _ _⟩
  | cons c cs ih =>
    have hatKid : h.mem.trie.atKid release d (np, c) =
        h.mem.trie.below release d (h.mem.kid (np, c)) := List.append_nil _
    have hfirst : (h.freed ++ (h.mem.trie.below release d (h.mem.kid (np, c)) ++
        [SetBlock.node np])).Nodup := by
      refine hfreed.sublist (List.Sublist.append_left ?_ h.freed)
      rw [List.map_cons, List.flatMap_cons, hatKid, List.append_assoc]
      exact List.Sublist.append_left (List.sublist_append_right _ _) _
    obtain ⟨h₁, hrun₁, hg, -⟩ := hrec h (.kid np c) _ hl hnp rfl (hdeep c) hfirst
    have hg₁ : Gives h (h.mem.trie.atKid release d (np, c)) [.edge (np, c)] h₁ := by
      rw [hatKid]
      exact hg
    have hks : ∀ j ∈ (np, c) :: cs.map (Prod.mk np), j ∈ release.order np := by
      intro j hj
      rw [← List.map_cons (f := Prod.mk np)] at hj
      obtain ⟨e, -, rfl⟩ := List.mem_map.mp hj
      exact List.mem_map.mpr ⟨e, mem_chunks e, rfl⟩
    have hlater := hg₁.cut.later_kids hks (by simpa using (List.nodup_cons.mp hcs).1)
      (List.nodup_append'.mp hfreed).2.1
    have hsame := List.flatMap_congr hlater
    obtain ⟨h₂, hrun₂, hg₂⟩ := ih hg₁.linked (Nat.lt_of_lt_of_eq hnp hg₁.nodes.symm)
      (List.nodup_cons.mp hcs).2 (fun e => (hdeep e).cut hg₁.cut) (by
        rw [hsame, hg₁.freed, List.append_assoc]
        simpa only [List.map_cons, List.flatMap_cons, List.append_assoc] using hfreed)
    rw [hsame] at hg₂
    refine ⟨h₂, ?_, hg₁.trans hg₂⟩
    rw [List.foldlM_cons, hrun₁, ok_bind, hrun₂]

/-- Freeing where there is nothing. -/
theorem frees_null (hl : Linked h.mem) (hv : h.mem.Valid npp)
    (hr : h.mem.trie.read (slotOf npp) = none) (hslot : slotBlock npp ∉ h.freed) :
    doFixsetFree (d + 1) h npp = .ok h ∧ Gives h [] [slotOf npp] h := by
  constructor
  · rw [doFixsetFree, Freeing.use_held hslot, ok_bind, read_node hv, hr]
    rfl
  · exact ⟨(List.append_nil _).symm, hl, rfl,
      (Trie.Cut.refl _ _).weaken (List.nil_subset _) (fun _ hin => absurd hin List.not_mem_nil)⟩

theorem do_fixset_free_spec (d : Nat) : Frees d := by
  induction d with
  | zero =>
    intro h npp np hl hv hr hdeep hfreed
    cases np with
    | none =>
      obtain ⟨hrun, hg⟩ := frees_null hl hv hr (List.append_nil h.freed ▸ Freeing.last_held hfreed)
      exact ⟨h, hrun, hg, hr⟩
    | some np => exact absurd hdeep.pos (Nat.lt_irrefl 0)
  | succ d ih =>
    intro h npp np hl hv hr hdeep hfreed
    have hslot := Freeing.last_held hfreed
    have hheld : slotBlock npp ∉ h.freed := fun hin => hslot (List.mem_append_left _ hin)
    cases np with
    | none =>
      obtain ⟨hrun, hg⟩ := frees_null hl hv hr hheld
      exact ⟨h, hrun, hg, hr⟩
    | some np =>
      have hnp := hl.read_lt hr
      have hkids : ∀ c, h.mem.trie.Shallow d (h.mem.kid (np, c)) := fun c => hdeep.kid rfl
      have hbelow : h.mem.trie.below release (d + 1) (some np) =
          (chunks.map (Prod.mk np)).flatMap (h.mem.trie.atKid release d) ++ [.node np] := rfl
      rw [hbelow] at hfreed hslot ⊢
      rw [← List.append_assoc] at hfreed
      have hblocks := (List.nodup_append'.mp hfreed).1
      obtain ⟨h₁, hrun₁, hg₁⟩ := free_slots_spec ih hl hnp nodup_chunks hkids hblocks
      rw [← List.append_assoc, List.nodup_append'] at hblocks
      have hnode : SetBlock.node np ∉ h₁.freed := by
        rw [hg₁.freed]
        exact fun hin => hblocks.2.2 hin (List.mem_singleton_self _)
      obtain ⟨h₂, hrun₂, hg₂⟩ := free_gives hg₁.linked hnode
      have hg := hg₁.trans hg₂
      rw [List.append_nil] at hg
      have hv₂ : h₂.mem.Valid npp := by
        cases npp with
        | root => trivial
        | kid n c => exact Nat.lt_of_lt_of_eq hv hg.nodes.symm
      obtain ⟨s, hrun₃, hg₃, hnull⟩ := clear_gives hg.linked hv₂
      have hend := hg.trans hg₃
      rw [List.append_nil] at hend
      refine ⟨{ h₂ with mem := s }, ?_, ⟨hend.freed, hend.linked, hend.nodes,
        hend.cut.weaken (List.Subset.refl _) ?_⟩, hnull⟩
      · rw [doFixsetFree, Freeing.use_held hheld, ok_bind, read_node hv, hr, ok_bind]
        simp only
        rw [hrun₁, ok_bind, hrun₂, ok_bind, Freeing.use_held (hg.freed ▸ hslot), ok_bind, hrun₃]
        rfl
      · -- the slots of the node went with it
        intro slot hin
        rcases List.mem_append.mp hin with hin | hin
        · obtain ⟨c, -, rfl⟩ := List.mem_map.mp hin
          exact Or.inr ⟨(np, c), rfl, List.mem_append_right _ (List.mem_singleton_self _)⟩
        · exact Or.inl hin

end

/-- What a run keeps for fixset_free: nodes are lost only where an address is
added again. -/
def RunCounts (s : Fixset) (added : List Addr) : Prop :=
  RunBytes s added ∧ s.trie.Counts s.nodes.length (added.map Subtype.val)

section
variable {s : Fixset} {added : List Addr}

theorem RunCounts.add (h : RunCounts s added) (a : Addr) :
    ∃ s', fixsetAdd s a = .ok s' ∧ RunCounts s' (added ++ [a]) := by
  obtain ⟨hbytes, hcounts⟩ := h
  obtain ⟨s', hrun, hbytes'⟩ := hbytes.add a
  obtain ⟨hlinked, ⟨key, hok⟩, hb, hkeeps⟩ := hbytes
  have hv : s.Valid .root := trivial
  obtain ⟨s'', hrun', -, -, hext⟩ := do_fixset_add_extends a.1 hlinked hv hok rfl hb
  obtain rfl : s' = s'' := Except.ok.inj (hrun.symm.trans hrun')
  refine ⟨s', hrun, hbytes', ?_⟩
  rw [List.map_append]
  exact hcounts.extend hkeeps hext a.2

/-- What do_fixset_free goes through is what is live. -/
theorem mem_below_iff {d : Nat} (hdeep : s.trie.Shallow d s.root) (b : SetBlock) :
    b ∈ s.trie.below release d s.root ++ [SetBlock.set] ↔ s.Held b := by
  have hof : b ∈ s.trie.below release d s.root ↔ ∃ np, s.trie.Live np ∧ release.Of b np :=
    Trie.mem_below_root (orders s) hdeep
  rw [List.mem_append, hof]
  simp only [← live_iff]
  cases b <;> simp [Release.Of, release, Held]

theorem RunCounts.free (h : RunCounts s added) : ∃ h', fixsetFree s = .ok h' ∧
    h'.mem.root = none ∧ Released s.nodes.length 0 s.Held added h'.freed := by
  obtain ⟨⟨hl, ⟨key, hok⟩, -, hkeeps⟩, live, hlive, hcard⟩ := h
  rw [Trie.card_map_to_finset Subtype.val_injective, List.length_map] at hcard
  have hle := List.toFinset_card_le added
  have hdeep : s.trie.Shallow (ADDR_LEN + 1) s.root :=
    fun u np hnp => Nat.lt_succ_of_le (hkeeps.bound u np hnp).2
  have hset : ∀ np, ¬ release.Of SetBlock.set np := by simp [Release.Of, release]
  obtain ⟨hout, hnodup⟩ := Trie.below_then (orders s) hok hset (ADDR_LEN + 1) s.root
  obtain ⟨h₁, hrun₁, hg₁, hnull⟩ := do_fixset_free_spec (ADDR_LEN + 1) ⟨s, []⟩ .root s.root
    hl trivial rfl hdeep hnodup
  have hfreed : h₁.freed = s.trie.below release (ADDR_LEN + 1) s.root := hg₁.freed
  refine ⟨{ h₁ with freed := h₁.freed ++ [SetBlock.set] }, ?_, hnull, ?_⟩
  · rw [fixsetFree, hrun₁, ok_bind, Freeing.free_held (hfreed ▸ hout)]
  · rw [hfreed]
    refine released live trivial ?_ ?_ (by omega) hnodup (mem_below_iff hdeep)
    · exact fun k => iff_of_false not_false (Nat.not_lt_zero k)
    · exact fun np => (hlive np).trans (live_iff s np).symm

end

/-- fixset_free after any adds: no block is used or freed after it was freed,
and nothing that the set holds is left. -/
theorem fixset_free_releases (adds : List Addr) :
    ∃ s h, fixsetRun adds = .ok s ∧ fixsetFree s = .ok h ∧ h.mem.root = none ∧
      Released s.nodes.length 0 s.Held adds h.freed := by
  have hnew : RunCounts fixsetNew [] := ⟨RunBytes.new, Trie.counts_nil rfl⟩
  obtain ⟨s, hrun, hcounts⟩ := fold_keeps (P := RunCounts) (fun a h => h.add a) adds hnew
  obtain ⟨h, hfree, hnull, hreleased⟩ := hcounts.free
  exact ⟨s, h, hrun, hfree, hnull, hreleased⟩

end Mepl.Fixset
