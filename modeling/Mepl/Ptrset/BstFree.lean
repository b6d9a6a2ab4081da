import Mepl.Ptrset.Blocks
import Mepl.Ptrset.BstBytes
import Mepl.Ptrset.Runs

namespace Mepl
open Base

/-- The order that kid_free goes in. -/
def postorder : KeyTree Nat PtrT → List Nat
  | .nil => []
  | .node _ k _ l r => postorder l ++ postorder r ++ [k]

namespace BstSet

/-- The set's own block, and what its nodes lead to. -/
def Held (s : BstSet) : SetBlock → Prop
  | .set => True
  | .node np => s.Live (.inl np)
  | .kid k => s.Live (.inr k)

/-- A pointer that the frees write. -/
inductive Field where
  | root
  | kids (np : Nat)
  | child (d : Dir) (k : Nat)
  | edge (k : Nat)
deriving DecidableEq, Repr

def get (s : BstSet) : Field → Ptr
  | .root => s.root
  | .kids np => (s.nodes[np]?).bind Node.kids
  | .child d k => (s.kids[k]?).bind (fun kid => kid.child d)
  | .edge k => s.edge k

/-- The block that a pointer is in. -/
def Field.block : Field → SetBlock
  | .root => .set
  | .kids np => .node np
  | .child _ k => .kid k
  | .edge k => .kid k

end BstSet

def KidSlot.field : KidSlot → BstSet.Field
  | .kids np => .kids np
  | .child d k => .child d k

def NodeSlot.field : NodeSlot → BstSet.Field
  | .root => .root
  | .edge k => .edge k

namespace BstSet

/-- `*kpp`, where it has to point to a kid -/
def kidAt (h : Freeing BstSet SetBlock) (kpp : KidSlot) : Res Nat := do
  h.use kpp.field.block
  match ← h.mem.readKid kpp with
  | none => .error .fault
  | some k => do
    h.use (.kid k)
    pure k

/-- kid_free; every step goes to the kid through kpp again. -/
def kidFree (free : Freeing BstSet SetBlock → NodeSlot → Res (Freeing BstSet SetBlock)) :
    Nat → Freeing BstSet SetBlock → KidSlot → Res (Freeing BstSet SetBlock)
  | 0, _, _ => .error .fuel
  | m + 1, h, kpp => do
    h.use kpp.field.block
    if (← h.mem.readKid kpp).isNone then pure h
    else
      let h ← kidFree free m h (.child .left (← kidAt h kpp))
      let h ← kidFree free m h (.child .right (← kidAt h kpp))
      let h ← free h (.edge (← kidAt h kpp))
      let h ← h.free (.kid (← kidAt h kpp))
      h.use kpp.field.block
      let s ← h.mem.writeKid kpp none
      pure { h with mem := s }

/-- do_bst_set_free -/
def doBstSetFree : Nat → Freeing BstSet SetBlock → NodeSlot → Res (Freeing BstSet SetBlock)
  | 0, _, _ => .error .fuel
  | d + 1, h, npp => do
    h.use npp.field.block
    match ← h.mem.readNode npp with
    | none => pure h
    | some np => do
      let h ← kidFree (doBstSetFree d) (h.mem.kids.length + 1) h (.kids np)
      let h ← h.free (.node np)
      h.use npp.field.block
      let s ← h.mem.writeNode npp none
      pure { h with mem := s }

/-- bst_set_free. The calls are as deep as an address is long, with one for
the root and one for the NULL at the end. -/
def bstSetFree (s : BstSet) : Res (Freeing BstSet SetBlock) := do
  let h ← doBstSetFree (ADDR_LEN + 2) ⟨s, []⟩ .root
  h.free .set

/-- The order of the frees: a kid after those below it in its tree and after
the node it leads to. -/
def release (tree : Nat → KeyTree Nat PtrT) : Release Nat Nat SetBlock :=
  SetBlock.release (fun np => postorder (tree np))

/-- A call that freed the blocks and emptied the fields: pointers go nowhere
new, and those outside of the blocks are as before. -/
structure Gives (h : Freeing BstSet SetBlock) (blocks : List SetBlock) (fields : List Field)
    (h' : Freeing BstSet SetBlock) : Prop where
  freed : h'.freed = h.freed ++ blocks
  nodes : h'.mem.nodes.length = h.mem.nodes.length
  parents : h'.mem.kids.map Kid.parent = h.mem.kids.map Kid.parent
  values : h'.mem.kids.map Kid.v = h.mem.kids.map Kid.v
  colors : h'.mem.kids.map Kid.color = h.mem.kids.map Kid.color
  less : ∀ f p, h'.mem.get f = some p → h.mem.get f = some p
  root : .root ∉ fields → h'.mem.root = h.mem.root
  same : ∀ f, f ∉ fields → f.block ∉ blocks → h'.mem.get f = h.mem.get f

section
variable {s : BstSet} {tree : Nat → KeyTree Nat PtrT} {h h₁ h' : Freeing BstSet SetBlock}
  {blocks blocks' : List SetBlock} {fields fields' : List Field} {npp : NodeSlot} {kpp : KidSlot}
  {np d n : Nat}

theorem Gives.refl (h : Freeing BstSet SetBlock) (fields : List Field) : Gives h [] fields h where
  freed := (List.append_nil _).symm
  nodes := rfl
  parents := rfl
  values := rfl
  colors := rfl
  less := fun _ _ hf => hf
  root := fun _ => rfl
  same := fun _ _ _ => rfl

theorem Gives.trans (h₁g : Gives h blocks fields h₁) (hg : Gives h₁ blocks' fields' h') :
    Gives h (blocks ++ blocks') (fields ++ fields') h' where
  freed := by rw [hg.freed, h₁g.freed, List.append_assoc]
  nodes := hg.nodes.trans h₁g.nodes
  parents := hg.parents.trans h₁g.parents
  values := hg.values.trans h₁g.values
  colors := hg.colors.trans h₁g.colors
  less := fun f p hf => h₁g.less f p (hg.less f p hf)
  root := by
    intro hr
    rw [List.mem_append, not_or] at hr
    exact (hg.root hr.2).trans (h₁g.root hr.1)
  same := by
    intro f hf hb
    rw [List.mem_append, not_or] at hf hb
    exact (hg.same f hf.2 hb.2).trans (h₁g.same f hf.1 hb.1)

/-- Fields in blocks that were freed do not count. -/
theorem Gives.weaken (hg : Gives h blocks fields h')
    (hfields : ∀ f ∈ fields, f ∈ fields' ∨ f ≠ .root ∧ f.block ∈ blocks) :
    Gives h blocks fields' h' where
  freed := hg.freed
  nodes := hg.nodes
  parents := hg.parents
  values := hg.values
  colors := hg.colors
  less := hg.less
  root := by
    intro hr
    refine hg.root (fun hin => ?_)
    exact (hfields _ hin).elim hr (fun hne => hne.1 rfl)
  same := by
    intro f hf hb
    refine hg.same f (fun hin => ?_) hb
    exact (hfields f hin).elim hf (fun hne => hb hne.2)

theorem Gives.kids_length (hg : Gives h blocks fields h') :
    h'.mem.kids.length = h.mem.kids.length := by
  have hlen := congrArg List.length hg.values
  rwa [List.length_map, List.length_map] at hlen

/-- In the trie, only the root and the edges count. -/
theorem Gives.cut (hg : Gives h blocks fields h') {slots : List (Trie.Slot Nat)}
    (hroot : .root ∈ fields → .root ∈ slots) (hedge : ∀ k, .edge k ∈ fields → .edge k ∈ slots) :
    (trieOf h.mem tree).Cut (release tree) blocks slots (trieOf h'.mem tree) where
  kid := rfl
  less := by
    intro slot p hp
    cases slot with
    | root => exact hg.less .root p hp
    | edge k => exact hg.less (.edge k) p hp
  root := fun hr => hg.root (fun hin => hr (hroot hin))
  edge := fun k hk hb => hg.same (.edge k) (fun hin => hk (hedge k hin)) hb

/-- A tree of kids that no call came to is as it was. -/
theorem Gives.tree_at (hg : Gives h blocks fields h') {t : KeyTree Nat PtrT} {parent : Ptr}
    (ht : TreeAt h.mem.kids parent t) (hkids : ∀ k ∈ t.keys, SetBlock.kid k ∉ blocks)
    (hfields : ∀ k ∈ t.keys, ∀ d, .child d k ∉ fields) : TreeAt h'.mem.kids parent t := by
  induction t generalizing parent with
  | nil => trivial
  | node c k v l r ihl ihr =>
    obtain ⟨⟨kid, hkid, hp, hl, hr, hv, hc⟩, htl, htr⟩ := ht
    have hin : k ∈ (KeyTree.node c k v l r).keys := mem_keys_node.mpr (Or.inl rfl)
    have hlt : k < h'.mem.kids.length := by
      rw [hg.kids_length]
      exact (List.getElem?_eq_some_iff.mp hkid).1
    have hkid' := List.getElem?_eq_getElem hlt
    have hchild : ∀ d, (h'.mem.kids[k]).child d = kid.child d := by
      intro d
      have hsame := hg.same (.child d k) (hfields k hin d) (hkids k hin)
      simpa [get, hkid, hkid'] using hsame
    have hfield : ∀ {α : Type} (g : Kid → α), h'.mem.kids.map g = h.mem.kids.map g →
        g h'.mem.kids[k] = g kid := by
      intro α g hmap
      have hget := congrArg (fun l => l[k]?) hmap
      simpa [hkid, hkid'] using hget
    refine ⟨⟨h'.mem.kids[k], hkid', ?_, ?_, ?_, ?_, ?_⟩, ihl htl ?_ ?_, ihr htr ?_ ?_⟩
    · rw [hfield _ hg.parents, hp]
    · rw [hchild, hl]
    · rw [hchild, hr]
    · rw [hfield _ hg.values, hv]
    · rw [hfield _ hg.colors, hc]
    · exact fun j hj => hkids j (mem_keys_node.mpr (Or.inr (Or.inl hj)))
    · exact fun j hj => hfields j (mem_keys_node.mpr (Or.inr (Or.inl hj)))
    · exact fun j hj => hkids j (mem_keys_node.mpr (Or.inr (Or.inr hj)))
    · exact fun j hj => hfields j (mem_keys_node.mpr (Or.inr (Or.inr hj)))

/-- `free(b)` -/
theorem free_gives {b : SetBlock} (hb : b ∉ h.freed) : ∃ h', h.free b = .ok h' ∧
    h'.mem = h.mem ∧ Gives h [b] [] h' :=
  ⟨_, Freeing.free_held hb, rfl, rfl, rfl, rfl, rfl, rfl, fun _ _ hf => hf, fun _ => rfl,
    fun _ _ _ => rfl⟩

/-- Writing NULL to one field of one object. -/
theorem null_gives {s s' : BstSet} {freed : List SetBlock} {f : Field}
    (hnodes : s'.nodes.length = s.nodes.length)
    (hparents : s'.kids.map Kid.parent = s.kids.map Kid.parent)
    (hvalues : s'.kids.map Kid.v = s.kids.map Kid.v)
    (hcolors : s'.kids.map Kid.color = s.kids.map Kid.color)
    (hget : ∀ g, s'.get g = if g = f then none else s.get g) :
    Gives ⟨s, freed⟩ [] [f] ⟨s', freed⟩ where
  freed := (List.append_nil _).symm
  nodes := hnodes
  parents := hparents
  values := hvalues
  colors := hcolors
  less := by
    intro g p hp
    have hp' : s'.get g = some p := hp
    rw [hget] at hp'
    split at hp'
    · cases hp'
    · exact hp'
  root := by
    intro hr
    have hne : Field.root ≠ f := fun he => hr (he ▸ List.mem_singleton_self _)
    exact (hget .root).trans (if_neg hne)
  same := by
    intro g hg _
    have hne : g ≠ f := fun he => hg (he ▸ List.mem_singleton_self _)
    exact (hget g).trans (if_neg hne)

/-- A slot that can be read and written. -/
def ValidKid (s : BstSet) : KidSlot → Prop
  | .kids np => np < s.nodes.length
  | .child _ k => k < s.kids.length

theorem read_kid (hv : s.ValidKid kpp) : s.readKid kpp = .ok (s.get kpp.field) := by
  cases kpp with
  | kids np =>
    have hnp : np < s.nodes.length := hv
    simp [readKid, KidSlot.field, get, load_lt hnp, hnp]
  | child e k =>
    have hk : k < s.kids.length := hv
    simp [readKid, KidSlot.field, get, load_lt hk, hk]

/-- `*kpp = NULL` -/
theorem clear_kid (hv : h.mem.ValidKid kpp) : ∃ s, h.mem.writeKid kpp none = .ok s ∧
    Gives h [] [kpp.field] { h with mem := s } ∧ s.get kpp.field = none := by
  obtain ⟨s, freed⟩ := h
  cases kpp with
  | kids np =>
    have hnp : np < s.nodes.length := hv
    let s' : BstSet := { s with nodes := s.nodes.set np ⟨none⟩ }
    have hget : ∀ g, s'.get g = if g = .kids np then none else s.get g := by
      intro g
      cases g with
      | kids m =>
        by_cases hm : np = m
        · subst hm
          simp [get, s', hnp]
        · simp [get, s', List.getElem?_set_ne hm, Ne.symm hm]
      | _ => simp [get, s', edge]
    refine ⟨s', ?_, null_gives List.length_set rfl rfl rfl hget, (hget _).trans (if_pos rfl)⟩
    simp [writeKid, load_lt hnp, store_lt hnp, s']
  | child e k =>
    have hk : k < s.kids.length := hv
    let s' : BstSet := { s with kids := s.kids.modify k (fun kid => kid.setChild e none) }
    have hget : ∀ g, s'.get g = if g = .child e k then none else s.get g := by
      intro g
      cases g with
      | child e' j =>
        by_cases hj : k = j
        · subst hj
          cases e <;> cases e' <;> simp [get, s', hk, Kid.child, Kid.setChild]
        · simp [get, s', List.getElem?_modify_ne _ s.kids hj, Ne.symm hj]
      | edge j =>
        by_cases hj : k = j
        · subst hj
          simp [get, s', edge, hk]
        · simp [get, s', edge, List.getElem?_modify_ne _ s.kids hj]
      | _ => simp [get, s']
    refine ⟨s', ?_, null_gives rfl ?_ ?_ ?_ hget, (hget _).trans (if_pos rfl)⟩
    · simp [writeKid, assign_lt hk, s']
    · exact map_field_modify s.kids k (fun kid => Kid.set_child_parent kid e none)
    · exact map_field_modify s.kids k (fun kid => Kid.set_child_v kid e none)
    · exact map_field_modify s.kids k (fun kid => Kid.set_child_color kid e none)

/-- `*npp = NULL` -/
theorem clear_node (hv : h.mem.Valid npp) : ∃ s, h.mem.writeNode npp none = .ok s ∧
    Gives h [] [npp.field] { h with mem := s } ∧ s.get npp.field = none := by
  obtain ⟨s, freed⟩ := h
  cases npp with
  | root =>
    have hget : ∀ g, get { s with root := none } g = if g = .root then none else s.get g := by
      intro g
      cases g <;> simp [get, edge]
    exact ⟨_, rfl, null_gives rfl rfl rfl rfl hget, rfl⟩
  | edge k =>
    have hk : k < s.kids.length := hv
    let s' : BstSet := { s with kids := s.kids.modify k (fun kid => kid.setEdge none) }
    have hget : ∀ g, s'.get g = if g = .edge k then none else s.get g := by
      intro g
      cases g with
      | child e j =>
        by_cases hj : k = j
        · subst hj
          simp [get, s', hk]
        · simp [get, s', List.getElem?_modify_ne _ s.kids hj]
      | edge j =>
        simp only [get, Field.edge.injEq]
        exact edge_set_edge k hk none j
      | _ => simp [get, s']
    refine ⟨s', ?_, null_gives rfl ?_ ?_ ?_ hget, (hget _).trans (if_pos rfl)⟩
    · simp [writeNode, assign_lt hk, s']
    · exact map_field_modify s.kids k (fun _ => rfl)
    · exact map_field_modify s.kids k (fun _ => rfl)
    · exact map_field_modify s.kids k (fun _ => rfl)

/-- A slot with the kid it points to: both their blocks are still held, and so
are the ones that are left to be freed before them. -/
structure HoldsKid (h : Freeing BstSet SetBlock) (kpp : KidSlot) (k : Nat)
    (left : List SetBlock) : Prop where
  valid : h.mem.ValidKid kpp
  get : h.mem.get kpp.field = some k
  apart : (h.freed ++ (left ++ [.kid k, kpp.field.block])).Nodup

section
variable {left : List SetBlock}

theorem HoldsKid.slot (hp : HoldsKid h kpp n left) : kpp.field.block ∉ h.freed :=
  fun hin => (List.nodup_append'.mp hp.apart).2.2 hin (by simp)

theorem HoldsKid.kid (hp : HoldsKid h kpp n left) : .kid n ∉ h.freed :=
  fun hin => (List.nodup_append'.mp hp.apart).2.2 hin (by simp)

theorem HoldsKid.ne (hp : HoldsKid h kpp n left) : kpp.field.block ≠ .kid n := by
  have hlast := (List.nodup_append'.mp (List.nodup_append'.mp hp.apart).2.1).2.1
  intro he
  simp [he] at hlast

theorem HoldsKid.out (hp : HoldsKid h kpp n left) : .kid n ∉ left ∧ kpp.field.block ∉ left := by
  have hleft := (List.nodup_append'.mp (List.nodup_append'.mp hp.apart).2.1).2.2
  exact ⟨fun hin => hleft hin (by simp), fun hin => hleft hin (by simp)⟩

/-- The slot does not count among what a free of the kid goes through. -/
theorem HoldsKid.nodup (hp : HoldsKid h kpp n left) :
    (h.freed ++ (left ++ [SetBlock.kid n])).Nodup := by
  have hall := hp.apart
  rw [List.append_cons, ← List.append_assoc] at hall
  exact (List.nodup_append'.mp hall).1

theorem HoldsKid.kid_at (hp : HoldsKid h kpp n left) : kidAt h kpp = .ok n := by
  rw [kidAt, Freeing.use_held hp.slot, ok_bind, read_kid hp.valid, hp.get, ok_bind]
  simp only
  rw [Freeing.use_held hp.kid]
  rfl

theorem Gives.valid_kid (hg : Gives h blocks fields h') (hv : h.mem.ValidKid kpp) :
    h'.mem.ValidKid kpp := by
  cases kpp with
  | kids np => exact Nat.lt_of_lt_of_eq hv hg.nodes.symm
  | child e k => exact Nat.lt_of_lt_of_eq hv hg.kids_length.symm

/-- A call that freed the next blocks and emptied only fields of the kid. -/
theorem HoldsKid.keep (hp : HoldsKid h kpp n (blocks ++ left)) (hg : Gives h blocks fields h')
    (hfields : ∀ f ∈ fields, f.block = .kid n) : HoldsKid h' kpp n left where
  valid := hg.valid_kid hp.valid
  get := by
    have hout : kpp.field ∉ fields := fun hin => hp.ne (hfields _ hin)
    have hslot : kpp.field.block ∉ blocks := fun hin => hp.out.2 (List.mem_append_left _ hin)
    exact (hg.same kpp.field hout hslot).trans hp.get
  apart := by
    have hall := hp.apart
    rwa [List.append_assoc, ← List.append_assoc, ← hg.freed] at hall

/-- A tree whose kids are still to be freed is as it was. -/
theorem HoldsKid.tree_at {e : Dir} {t : KeyTree Nat PtrT} {parent : Ptr}
    (hp : HoldsKid h kpp n (blocks ++ left)) (hg : Gives h blocks [.child e n] h')
    (hat : TreeAt h.mem.kids parent t) (hleft : ∀ j ∈ t.keys, .kid j ∈ left) :
    TreeAt h'.mem.kids parent t := by
  have hall := hp.nodup
  rw [List.append_assoc, List.nodup_append'] at hall
  refine hg.tree_at hat (fun j hj hin => ?_) (fun j hj e' hin => ?_)
  · exact (List.nodup_append'.mp hall.2.1).2.2 hin (List.mem_append_left _ (hleft j hj))
  · rw [List.mem_singleton, Field.child.injEq] at hin
    exact hp.out.1 (List.mem_append_right _ (hin.2 ▸ hleft j hj))

/-- `free(*kpp); *kpp = NULL` -/
theorem HoldsKid.free (hp : HoldsKid h kpp n []) : ∃ h₁ s, h.free (.kid n) = .ok h₁ ∧
    kpp.field.block ∉ h₁.freed ∧ h₁.mem.writeKid kpp none = .ok s ∧
    Gives h [.kid n] [kpp.field] { h₁ with mem := s } ∧ s.get kpp.field = none := by
  obtain ⟨h₁, hrun, -, hg⟩ := free_gives hp.kid
  obtain ⟨s, hclear, hgs, hnull⟩ := clear_kid (hg.valid_kid hp.valid)
  refine ⟨h₁, s, hrun, ?_, hclear, hg.trans hgs, hnull⟩
  rw [hg.freed, List.mem_append, List.mem_singleton, not_or]
  exact ⟨hp.slot, hp.ne⟩

end

/-- The trees of the nodes among the blocks are held. -/
def Stands (s : BstSet) (tree : Nat → KeyTree Nat PtrT) (blocks : List SetBlock) : Prop :=
  ∀ np, .node np ∈ blocks → np < s.nodes.length ∧ s.get (.kids np) = (tree np).top ∧
    TreeAt s.kids none (tree np) ∧ ∀ k ∈ (tree np).keys, .kid k ∈ blocks

theorem Stands.keep {left : List SetBlock} (hs : Stands h.mem tree left)
    (hg : Gives h blocks fields h') (hleft : ∀ b ∈ left, b ∉ blocks)
    (hfields : ∀ f ∈ fields, f.block ∉ left) : Stands h'.mem tree left := by
  intro np hnp
  obtain ⟨hlt, hget, hat, hkids⟩ := hs np hnp
  refine ⟨Nat.lt_of_lt_of_eq hlt hg.nodes.symm, ?_, hg.tree_at hat ?_ ?_, hkids⟩
  · rw [hg.same (.kids np) (fun hin => hfields _ hin hnp) (hleft _ hnp), hget]
  · exact fun k hk => hleft _ (hkids k hk)
  · exact fun k hk e hin => hfields _ hin (hkids k hk)

/-- do_bst_set_free, no more than d deep, frees all that is below the slot. -/
def Frees (tree : Nat → KeyTree Nat PtrT) (d : Nat) : Prop :=
  ∀ (h : Freeing BstSet SetBlock) (npp : NodeSlot) (np : Ptr), h.mem.Valid npp →
    h.mem.get npp.field = np → (trieOf h.mem tree).Shallow d np →
    Stands h.mem tree ((trieOf h.mem tree).below (release tree) d np) →
    (h.freed ++ ((trieOf h.mem tree).below (release tree) d np ++ [npp.field.block])).Nodup →
    ∃ h', doBstSetFree (d + 1) h npp = .ok h' ∧
      Gives h ((trieOf h.mem tree).below (release tree) d np) [npp.field] h' ∧
      h'.mem.get npp.field = none

theorem mem_postorder {t : KeyTree Nat PtrT} {k : Nat} : k ∈ postorder t ↔ k ∈ t.keys := by
  induction t with
  | nil => exact Iff.rfl
  | node c j v l r ihl ihr =>
    rw [mem_keys_node, postorder, List.mem_append, List.mem_append, List.mem_singleton, ihl, ihr]
    exact or_comm

/-- What the kids lead to can be freed, d deep. -/
structure Ready (s : BstSet) (tree : Nat → KeyTree Nat PtrT) (d : Nat) (ks : List Nat) : Prop where
  deep : ∀ k ∈ ks, (trieOf s tree).Shallow d (s.edge k)
  stands : ∀ k ∈ ks, Stands s tree ((trieOf s tree).below (release tree) d (s.edge k))

theorem Ready.mono {ks ks' : List Nat} (hs : Ready s tree d ks) (hks : ∀ k ∈ ks', k ∈ ks) :
    Ready s tree d ks' :=
  ⟨fun k hk => hs.deep k (hks k hk), fun k hk => hs.stands k (hks k hk)⟩

/-- Kids that no call came to are still ready, and lead to what they led to. -/
theorem Ready.keep {ks : List Nat} (hs : Ready h.mem tree d ks) (hg : Gives h blocks fields h')
    (hout : ∀ j ∈ ks, ∀ b ∈ (trieOf h.mem tree).atKid (release tree) d j, b ∉ blocks)
    (hfields : ∀ f ∈ fields, ∃ e k, f = .child e k ∧ ∀ j ∈ ks,
      .kid k ∉ (trieOf h.mem tree).below (release tree) d (h.mem.edge j)) :
    Ready h'.mem tree d ks ∧ (∀ j ∈ ks, h'.mem.edge j = h.mem.edge j) ∧
      ∀ j ∈ ks, (trieOf h'.mem tree).atKid (release tree) d j =
        (trieOf h.mem tree).atKid (release tree) d j := by
  have hedges : ∀ k, Field.edge k ∉ fields := by
    intro k hin
    obtain ⟨e, k', he, -⟩ := hfields _ hin
    cases he
  have hroot : Field.root ∉ fields := by
    intro hin
    obtain ⟨e, k', he, -⟩ := hfields _ hin
    cases he
  have hcut : (trieOf h.mem tree).Cut (release tree) blocks [] (trieOf h'.mem tree) :=
    hg.cut (fun hin => absurd hin hroot) (fun k hin => absurd hin (hedges k))
  have hkid : ∀ j ∈ ks, SetBlock.kid j ∉ blocks :=
    fun j hj => hout j hj _ (List.mem_append_right _ (List.mem_singleton_self _))
  have hedge : ∀ j ∈ ks, h'.mem.edge j = h.mem.edge j :=
    fun j hj => hg.same (.edge j) (hedges j) (hkid j hj)
  have hlater := hcut.later (d := d) hkid
    (fun j hj b hb => hout j hj b (List.mem_append_left _ hb))
    (fun k hk => absurd hk List.not_mem_nil)
  refine ⟨⟨fun j hj => (hs.deep j hj).cut hcut, fun j hj => ?_⟩, hedge, hlater⟩
  have hbelow : (trieOf h'.mem tree).below (release tree) d (h'.mem.edge j) =
      (trieOf h.mem tree).below (release tree) d (h.mem.edge j) :=
    List.append_cancel_right (hlater j hj)
  rw [hbelow]
  refine (hs.stands j hj).keep hg (fun b hb => hout j hj b (List.mem_append_left _ hb)) ?_
  intro f hf
  obtain ⟨e, k, rfl, hk⟩ := hfields f hf
  exact hk j hj

/-- Freeing where there is no kid. -/
theorem kid_free_null (free : Freeing BstSet SetBlock → NodeSlot → Res (Freeing BstSet SetBlock))
    (hv : h.mem.ValidKid kpp) (hget : h.mem.get kpp.field = none)
    (hslot : kpp.field.block ∉ h.freed) : kidFree free (n + 1) h kpp = .ok h := by
  rw [kidFree, Freeing.use_held hslot, ok_bind, read_kid hv, hget]
  rfl

/-- What kid_free gives back for a tree of kids. -/
def kidBlocks (s : BstSet) (tree : Nat → KeyTree Nat PtrT) (d : Nat) (t : KeyTree Nat PtrT) :
    List SetBlock :=
  (postorder t).flatMap ((trieOf s tree).atKid (release tree) d)

/-- kid_free frees the kids of the tree, each after what it leads to. -/
def FreesKids (tree : Nat → KeyTree Nat PtrT) (d : Nat) (t : KeyTree Nat PtrT) : Prop :=
  ∀ (h : Freeing BstSet SetBlock) (kpp : KidSlot) (parent : Ptr) (n : Nat), h.mem.ValidKid kpp →
    h.mem.get kpp.field = t.top → TreeAt h.mem.kids parent t → t.keys.length < n →
    Ready h.mem tree d t.keys →
    (h.freed ++ (kidBlocks h.mem tree d t ++ [kpp.field.block])).Nodup →
    ∃ h', kidFree (doBstSetFree (d + 1)) n h kpp = .ok h' ∧
      Gives h (kidBlocks h.mem tree d t) [kpp.field] h' ∧ h'.mem.get kpp.field = none

theorem kid_blocks_node {c : Color} {k : Nat} {v : PtrT} {l r : KeyTree Nat PtrT} :
    kidBlocks s tree d (.node c k v l r) = kidBlocks s tree d l ++ (kidBlocks s tree d r ++
      ((trieOf s tree).below (release tree) d (s.edge k) ++ [.kid k])) := by
  simp only [kidBlocks, postorder, List.flatMap_append, List.flatMap_singleton, List.append_assoc]
  rfl

theorem mem_kid_blocks {t : KeyTree Nat PtrT} {j : Nat} {b : SetBlock} (hj : j ∈ t.keys)
    (hb : b ∈ (trieOf s tree).atKid (release tree) d j) : b ∈ kidBlocks s tree d t :=
  List.mem_flatMap.mpr ⟨j, mem_postorder.mpr hj, hb⟩

theorem kid_mem_blocks {t : KeyTree Nat PtrT} {j : Nat} (hj : j ∈ t.keys) :
    .kid j ∈ kidBlocks s tree d t :=
  mem_kid_blocks hj (List.mem_append_right _ (List.mem_singleton_self _))

/-- The tree below a kid on one side is freed, and the kids that are left can
still be. -/
theorem FreesKids.child {t : KeyTree Nat PtrT} {k : Nat} {ks : List Nat} {left : List SetBlock}
    (ht : FreesKids tree d t) (e : Dir) (hp : HoldsKid h kpp k (kidBlocks h.mem tree d t ++ left))
    (hk : k < h.mem.kids.length) (hget : h.mem.get (.child e k) = t.top)
    (hat : TreeAt h.mem.kids (some k) t) (hfuel : t.keys.length < n)
    (hready : Ready h.mem tree d t.keys) (hlater : Ready h.mem tree d ks)
    (hleft : ∀ j ∈ ks, (∀ b ∈ (trieOf h.mem tree).below (release tree) d (h.mem.edge j), b ∈ left) ∧
      (j = k ∨ .kid j ∈ left)) :
    ∃ h', kidFree (doBstSetFree (d + 1)) n h (.child e k) = .ok h' ∧
      Gives h (kidBlocks h.mem tree d t) [.child e k] h' ∧ HoldsKid h' kpp k left ∧
      Ready h'.mem tree d ks ∧ ∀ j ∈ ks, (trieOf h'.mem tree).atKid (release tree) d j =
        (trieOf h.mem tree).atKid (release tree) d j := by
  have hall := hp.nodup
  simp only [List.append_assoc, List.nodup_append', List.disjoint_append_right,
    List.disjoint_singleton] at hall
  obtain ⟨hfd, ⟨hbd, -, hbl, hkb⟩, hfb, -, hkf⟩ := hall
  have hfreed : (h.freed ++ (kidBlocks h.mem tree d t ++ [SetBlock.kid k])).Nodup := by
    simp [List.nodup_append', hfd, hbd, hkb, hfb, hkf]
  have hkl : .kid k ∉ left := fun hin => hp.out.1 (List.mem_append_right _ hin)
  obtain ⟨h', hrun, hg, -⟩ := ht h (.child e k) _ n hk hget hat hfuel hready hfreed
  obtain ⟨hready', -, hsame⟩ := hlater.keep hg (by
      intro j hj b hb hin
      obtain ⟨hbelow, hkid⟩ := hleft j hj
      rcases List.mem_append.mp hb with hb | hb
      · exact hbl hin (hbelow b hb)
      · obtain rfl : b = .kid j := List.mem_singleton.mp hb
        rcases hkid with rfl | hkid
        · exact hkb hin
        · exact hbl hin hkid)
    (fun f hf => ⟨e, k, List.mem_singleton.mp hf, fun j hj hin => hkl ((hleft j hj).1 _ hin)⟩)
  exact ⟨h', hrun, hg, hp.keep hg (by simp [KidSlot.field, Field.block]), hready', hsame⟩

/-- What a kid leads to is freed. -/
theorem Frees.edge {k : Nat} (hrec : Frees tree d)
    (hp : HoldsKid h kpp k ((trieOf h.mem tree).below (release tree) d (h.mem.edge k)))
    (hk : k < h.mem.kids.length) (hready : Ready h.mem tree d [k]) :
    ∃ h', doBstSetFree (d + 1) h (.edge k) = .ok h' ∧
      Gives h ((trieOf h.mem tree).below (release tree) d (h.mem.edge k)) [.edge k] h' ∧
      HoldsKid h' kpp k [] := by
  have hin := List.mem_singleton_self k
  obtain ⟨h', hrun, hg, -⟩ := hrec h (.edge k) _ hk rfl (hready.deep k hin) (hready.stands k hin)
    hp.nodup
  rw [← List.append_nil ((trieOf h.mem tree).below (release tree) d (h.mem.edge k))] at hp
  exact ⟨h', hrun, hg, hp.keep hg (by simp [NodeSlot.field, Field.block])⟩

theorem kid_free_spec (hrec : Frees tree d) (t : KeyTree Nat PtrT) : FreesKids tree d t := by
  induction t with
  | nil =>
    intro h kpp parent n hv hget hat hfuel hready hfreed
    obtain ⟨m, rfl⟩ : ∃ m, n = m + 1 := ⟨n - 1, by omega⟩
    refine ⟨h, kid_free_null _ hv hget ?_, .refl h _, hget⟩
    exact fun hin => (List.nodup_append'.mp hfreed).2.2 hin (List.mem_singleton_self _)
  | node c k v l r ihl ihr =>
    intro h kpp parent n hv hget hat hfuel hready hfreed
    obtain ⟨m, rfl⟩ : ∃ m, n = m + 1 := ⟨n - 1, by omega⟩
    rw [length_keys_node] at hfuel
    obtain ⟨hkid, hatl, hatr⟩ := hat
    have hk : k < h.mem.kids.length := hkid.lt
    obtain ⟨kid, hkid, -, hl, hr, -, -⟩ := hkid
    have hreadyl : Ready h.mem tree d l.keys :=
      hready.mono (fun j hj => mem_keys_node.mpr (Or.inr (Or.inl hj)))
    have hreadyr : Ready h.mem tree d (k :: r.keys) := by
      refine hready.mono (fun j hj => mem_keys_node.mpr ?_)
      exact (List.mem_cons.mp hj).imp_right Or.inr
    rw [kid_blocks_node] at hfreed ⊢
    let under := (trieOf h.mem tree).below (release tree) d (h.mem.edge k)
    have hp : HoldsKid h kpp k
        (kidBlocks h.mem tree d l ++ (kidBlocks h.mem tree d r ++ under)) :=
      ⟨hv, hget, by simpa only [List.append_assoc, List.singleton_append] using hfreed⟩
    -- what is below k on the left
    have hgetl : h.mem.get (.child .left k) = l.top := by
      simp only [get, hkid]
      exact hl
    obtain ⟨h₁, hrun₁, hg₁, hp₁, hready₁, hsame₁⟩ := ihl.child (n := m) .left hp hk hgetl hatl
      (by omega) hreadyl hreadyr (by
        intro j hj
        rcases List.mem_cons.mp hj with rfl | hj
        · exact ⟨fun b hb => List.mem_append_right _ hb, Or.inl rfl⟩
        · refine ⟨fun b hb => List.mem_append_left _ ?_, Or.inr ?_⟩
          · exact mem_kid_blocks hj (List.mem_append_left _ hb)
          · exact List.mem_append_left _ (kid_mem_blocks hj))
    have hright : kidBlocks h₁.mem tree d r = kidBlocks h.mem tree d r :=
      List.flatMap_congr (fun j hj => hsame₁ j (List.mem_cons_of_mem k (mem_postorder.mp hj)))
    have hunder₁ : (trieOf h₁.mem tree).below (release tree) d (h₁.mem.edge k) = under :=
      List.append_cancel_right (hsame₁ k List.mem_cons_self)
    -- what is below k on the right
    have hgetr : h₁.mem.get (.child .right k) = r.top := by
      rw [hg₁.same (.child .right k) (by simp) (fun hin => hp.out.1 (List.mem_append_left _ hin))]
      simp only [get, hkid]
      exact hr
    have hatr₁ : TreeAt h₁.mem.kids (some k) r :=
      hp.tree_at hg₁ hatr (fun j hj => List.mem_append_left _ (kid_mem_blocks hj))
    have hk₁ : k < h₁.mem.kids.length := Nat.lt_of_lt_of_eq hk hg₁.kids_length.symm
    rw [← hright] at hp₁
    obtain ⟨h₂, hrun₂, hg₂, hp₂, hready₂, hsame₂⟩ := ihr.child (n := m) .right hp₁ hk₁ hgetr hatr₁
      (by omega) (hready₁.mono (fun j hj => List.mem_cons_of_mem k hj))
      (hready₁.mono (fun j hj => List.mem_cons.mpr (Or.inl (List.mem_singleton.mp hj)))) (by
        intro j hj
        obtain rfl := List.mem_singleton.mp hj
        exact ⟨fun b hb => hunder₁ ▸ hb, Or.inl rfl⟩)
    have hunder₂ : (trieOf h₂.mem tree).below (release tree) d (h₂.mem.edge k) = under :=
      (List.append_cancel_right (hsame₂ k (List.mem_singleton_self k))).trans hunder₁
    -- what k leads to, and k itself
    have hk₂ : k < h₂.mem.kids.length := Nat.lt_of_lt_of_eq hk₁ hg₂.kids_length.symm
    rw [← hunder₂] at hp₂
    obtain ⟨h₃, hrun₃, hg₃, hp₃⟩ := hrec.edge hp₂ hk₂ hready₂
    obtain ⟨h₄, s, hrun₄, hslot, hrun₅, hg₄, hnull⟩ := hp₃.free
    refine ⟨{ h₄ with mem := s }, ?_, ?_, hnull⟩
    · rw [kidFree, Freeing.use_held hp.slot, ok_bind, read_kid hv, hp.get, ok_bind]
      simp only [Option.isNone_some, Bool.false_eq_true, ↓reduceIte]
      rw [hp.kid_at, ok_bind, hrun₁, ok_bind, hp₁.kid_at, ok_bind, hrun₂, ok_bind, hp₂.kid_at,
        ok_bind, hrun₃, ok_bind, hp₃.kid_at, ok_bind, hrun₄, ok_bind, Freeing.use_held hslot,
        ok_bind, hrun₅]
      rfl
    · rw [hright] at hg₂
      rw [hunder₂] at hg₃
      exact (hg₁.trans (hg₂.trans (hg₃.trans hg₄))).weaken (by simp [Field.block])

/-- With a node, its kids are given back. -/
theorem below_closed (ho : (trieOf s tree).Orders (release tree)) {p : Ptr}
    (hnp : .node np ∈ (trieOf s tree).below (release tree) d p) :
    ∀ k ∈ (tree np).keys, .kid k ∈ (trieOf s tree).below (release tree) d p := by
  intro k hk
  obtain ⟨u, m, hu, hm, hof⟩ := (Trie.mem_below ho).mp hnp
  have hmn : m = np := by
    rcases hof with hof | ⟨j, -, hof⟩
    · cases List.mem_singleton.mp hof
      rfl
    · cases List.mem_singleton.mp hof
  subst hmn
  exact (Trie.mem_below ho).mpr
    ⟨u, m, hu, hm, Or.inr ⟨k, mem_postorder.mpr hk, List.mem_singleton_self _⟩⟩

theorem read_field (hv : s.Valid npp) : s.readNode npp = .ok (s.get npp.field) := by
  rw [read_node (fun _ => .nil) hv]
  cases npp <;> rfl

/-- Freeing where there is nothing. -/
theorem frees_null (hv : h.mem.Valid npp) (hget : h.mem.get npp.field = none)
    (hslot : npp.field.block ∉ h.freed) : doBstSetFree (d + 1) h npp = .ok h := by
  rw [doBstSetFree, Freeing.use_held hslot, ok_bind, read_field hv, hget]
  rfl

theorem do_bst_set_free_spec (htree : ∀ np, (tree np).keys.Nodup)
    (ho : ∀ s, (trieOf s tree).Orders (release tree)) (d : Nat) : Frees tree d := by
  induction d with
  | zero =>
    intro h npp np hv hr hdeep hstands hfreed
    cases np with
    | none =>
      have hheld := List.append_nil h.freed ▸ Freeing.last_held hfreed
      exact ⟨h, frees_null hv hr hheld, .refl h _, hr⟩
    | some np => exact absurd hdeep.pos (Nat.lt_irrefl 0)
  | succ d ih =>
    intro h npp np hv hr hdeep hstands hfreed
    have hslot := Freeing.last_held hfreed
    have hheld : npp.field.block ∉ h.freed := fun hin => hslot (List.mem_append_left _ hin)
    cases np with
    | none => exact ⟨h, frees_null hv hr hheld, .refl h _, hr⟩
    | some np =>
      have hbelow : (trieOf h.mem tree).below (release tree) (d + 1) (some np) =
          (postorder (tree np)).flatMap ((trieOf h.mem tree).atKid (release tree) d) ++
            [.node np] := rfl
      obtain ⟨hnp, hget, hat, -⟩ := hstands np (by rw [hbelow]; simp)
      have hready : Ready h.mem tree d (tree np).keys := by
        constructor
        · intro k hk
          obtain ⟨c, hc⟩ := ((ho h.mem).kids np k).mp (mem_postorder.mpr hk)
          exact hdeep.kid hc
        · intro k hk m hm
          have hin : SetBlock.node m ∈
              (trieOf h.mem tree).below (release tree) (d + 1) (some np) := by
            rw [hbelow]
            refine List.mem_append_left _ (List.mem_flatMap.mpr ⟨k, mem_postorder.mpr hk, ?_⟩)
            exact List.mem_append_left _ hm
          obtain ⟨hlt, hgetm, hatm, -⟩ := hstands m hin
          exact ⟨hlt, hgetm, hatm, below_closed (ho h.mem) hm⟩
      rw [hbelow] at hfreed hslot ⊢
      rw [← List.append_assoc] at hfreed
      have hblocks := (List.nodup_append'.mp hfreed).1
      have hfuel : (tree np).keys.length < h.mem.kids.length + 1 :=
        Nat.lt_succ_of_le (hat.length_le (htree np))
      have hvk : h.mem.ValidKid (.kids np) := hnp
      obtain ⟨h₁, hrun₁, hg₁, -⟩ :=
        kid_free_spec ih (tree np) h (.kids np) _ _ hvk hget hat hfuel hready hblocks
      rw [← List.append_assoc, List.nodup_append'] at hblocks
      have hnode : SetBlock.node np ∉ h₁.freed := by
        rw [hg₁.freed]
        exact fun hin => hblocks.2.2 hin (List.mem_singleton_self _)
      obtain ⟨h₂, hrun₂, -, hg₂⟩ := free_gives hnode
      have hg := hg₁.trans hg₂
      have hv₂ : h₂.mem.Valid npp := by
        cases npp with
        | root => trivial
        | edge k => exact Nat.lt_of_lt_of_eq hv hg.kids_length.symm
      obtain ⟨s, hrun₃, hg₃, hnull⟩ := clear_node hv₂
      have hend : Gives h _ [npp.field] _ := (hg.trans hg₃).weaken (by
        simp [KidSlot.field, Field.block])
      rw [List.append_nil] at hend
      refine ⟨{ h₂ with mem := s }, ?_, hend, hnull⟩
      rw [doBstSetFree, Freeing.use_held hheld, ok_bind, read_field hv, hr, ok_bind]
      simp only
      rw [hrun₁, ok_bind, hrun₂, ok_bind, Freeing.use_held (hg.freed ▸ hslot), ok_bind, hrun₃]
      rfl

end

/-- Every kid is in the tree of some node. -/
def Placed (s : BstSet) (tree : Nat → KeyTree Nat PtrT) : Prop :=
  ∀ k < s.kids.length, ∃ np c, (trieOf s tree).kid np c = some k

section
variable {s s' : BstSet} {tree : Nat → KeyTree Nat PtrT} {npp : NodeSlot} {np k fuel depth : Nat}
  {c : PtrT} {cs u : List PtrT} {key : Nat → List PtrT}

theorem postorder_perm (t : KeyTree Nat PtrT) : (postorder t).Perm t.keys := by
  induction t with
  | nil => exact .refl _
  | node c k v l r ihl ihr =>
    have hkeys : (KeyTree.node c k v l r).keys = l.keys ++ (k :: r.keys) := by
      simp [KeyTree.keys, KeyTree.inorder]
    rw [hkeys, postorder, List.append_assoc]
    exact ihl.append ((List.perm_append_singleton k _).trans (ihr.cons k))

theorem orders (h : Forest s tree) (s' : BstSet) : (trieOf s' tree).Orders (release tree) where
  kids := by
    intro np k
    rw [show k ∈ (release tree).order np ↔ k ∈ (tree np).keys from mem_postorder]
    constructor
    · intro hk
      obtain ⟨⟨k', v⟩, hkv, rfl⟩ := List.mem_map.mp hk
      exact ⟨v, ((h.sorted np).find_iff v k').mpr hkv⟩
    · rintro ⟨v, hv⟩
      exact List.mem_map_of_mem (KeyTree.find_mem hv)
  nodup := fun np => (postorder_perm (tree np)).nodup_iff.mpr (h.nodup np)

theorem kid_get_or_set_kids (h : Forest s tree) (hnp : np < s.nodes.length)
    (hok : AddOk s (some np) (c :: cs)) (hfuel : s.kids.length + 2 ≤ fuel)
    (hrun : kidGetOrSet fuel s np c = .ok (s', k)) : s'.kids.length = s.kids.length ∨
      s'.kids.length = s.kids.length + 1 ∧ k = s.kids.length := by
  rw [AddOk, h.tree_eq np] at hok
  cases hf : (tree np).find c with
  | some j =>
    have hlt : (tree np).keys.length < fuel := by
      have hle := h.length_le np
      omega
    have hfound := kid_get_or_set_found (h.get hnp) (h.held np) hlt hf
    rw [hfound] at hrun
    cases hrun
    exact Or.inl rfl
  | none =>
    rw [hf] at hok
    obtain ⟨s₁, tree₁, hrun₁, -, hlen, -⟩ := h.insert hnp hf hok hfuel
    rw [hrun₁] at hrun
    cases hrun
    exact Or.inr ⟨hlen, rfl⟩

theorem ensure_grows (h : Forest s tree) (hv : s.Valid npp) (hok : (trieOf s tree).Ok key)
    (ha : (trieOf s tree).At (slotOf npp) u) (hu : u.length < depth) (hb : Bytes s)
    (hplaced : Placed s tree)
    (hrun : (if ((trieOf s tree).read (slotOf npp)).isNone then s.setNew npp else pure s) =
      .ok s') :
    (trieOf s tree).Grows s.nodes.length depth (trieOf s' tree) s'.nodes.length ∧ Bytes s' ∧
      Placed s' tree := by
  cases hr : (trieOf s tree).read (slotOf npp) with
  | some np =>
    rw [hr] at hrun
    cases hrun
    exact ⟨.same (fun _ => rfl), hb, hplaced⟩
  | none =>
    rw [hr] at hrun
    obtain ⟨s₁, hrun₁, -, hkids, htrie⟩ := set_new_spec h hv
    have hsame : s₁ = s' := Except.ok.inj (hrun₁.symm.trans hrun)
    subst hsame
    obtain ⟨hlen, hb'⟩ := set_new_bytes hrun₁ hb
    refine ⟨?_, hb', ?_⟩
    · rw [htrie, hlen]
      exact .attach hok ha (fresh_node h).blank hr hu
    · rw [Placed, hkids, htrie]
      exact hplaced

/-- An add that meets no inner child extends the trie by its address. -/
theorem do_bst_set_add_extends (cs : List PtrT) (h : Forest s tree) (hv : s.Valid npp)
    (hok : (trieOf s tree).Ok key) (ha : (trieOf s tree).At (slotOf npp) u) (hb : Bytes s)
    (hplaced : Placed s tree) (hadd : AddOk s ((trieOf s tree).read (slotOf npp)) cs)
    (hfuel : s.kids.length + cs.length < fuel) :
    ∃ s' tree', doBstSetAdd fuel s npp cs = .ok s' ∧ Forest s' tree' ∧ Bytes s' ∧
      Placed s' tree' ∧
      (trieOf s tree).Extends s.nodes.length (u ++ cs) (trieOf s' tree') s'.nodes.length := by
  induction cs generalizing s tree npp key u with
  | nil =>
    obtain ⟨s', hrun, h', hkids, htrie⟩ := set_new_spec h hv
    obtain ⟨hlen, hb'⟩ := set_new_bytes hrun hb
    refine ⟨s', tree, hrun, h', hb', ?_, ?_⟩
    · rw [Placed, hkids, htrie]
      exact hplaced
    · rw [htrie, hlen, List.append_nil]
      exact .attach hok ha (fresh_node h).blank
  | cons c cs ih =>
    rw [List.length_cons] at hfuel
    obtain ⟨s₁, np, hrun₁, h₁, hensure, hread, hnp, hlen₁, hadd₁⟩ := ensure_node_spec h hv hadd
    obtain ⟨key₁, hok₁, hnode₁, -⟩ := hensure.spec hok ha
    have hlt : u.length < (u ++ c :: cs).length := by simp
    obtain ⟨hgrow₁, hb₁, hplaced₁⟩ := ensure_grows h hv hok ha hlt hb hplaced hrun₁
    have hfuel₁ : s₁.kids.length + 2 ≤ fuel := by omega
    obtain ⟨s₂, tree₂, k, hrun₂, h₂, hget, hk, hlen₂, hadd₂⟩ :=
      kid_get_or_set_spec h₁ hnp hadd₁ hfuel₁
    obtain ⟨hok₂, ha₂, -⟩ := hget.spec hok₁ hnode₁
    obtain ⟨hnodes₂, hb₂⟩ := kid_get_or_set_bytes hrun₂ hb₁
    have hkids₂ := kid_get_or_set_kids h₁ hnp hadd₁ hfuel₁ hrun₂
    have hplaced₂ : Placed s₂ tree₂ := by
      intro j hj
      by_cases hjk : j = k
      · exact ⟨np, c, hjk ▸ hget.kid_found⟩
      · obtain ⟨m, e, hm⟩ := hplaced₁ j (by omega)
        exact ⟨m, e, hget.kid_old hm⟩
    obtain ⟨s₃, tree₃, hrun₃, h₃, hb₃, hplaced₃, hext⟩ :=
      ih h₂ hk hok₂ ha₂ hb₂ hplaced₂ hadd₂ (by omega)
    refine ⟨s₃, tree₃, ?_, h₃, hb₃, hplaced₃, ?_⟩
    · rw [doBstSetAdd, read_node tree hv, ok_bind, hrun₁]
      simp only [ok_bind, hread, hrun₂, hrun₃]
    · rw [hnodes₂, List.append_assoc, List.singleton_append] at hext
      exact (hgrow₁.trans (.same hget.node_eq)).extends hext

end

section
variable {s : BstSet} {tree : Nat → KeyTree Nat PtrT} {np k : Nat}

/-- Child pointers stay inside a tree. -/
theorem child_mem {t : KeyTree Nat PtrT} {parent : Ptr} {kid : Kid} {d : Dir} {j : Nat}
    (hat : TreeAt s.kids parent t) (hk : k ∈ t.keys) (hkid : s.kids[k]? = some kid)
    (hj : kid.child d = some j) : j ∈ t.keys := by
  induction t generalizing parent with
  | nil => exact absurd hk List.not_mem_nil
  | node c i v l r ihl ihr =>
    obtain ⟨⟨kid', hkid', -, hl, hr, -, -⟩, htl, htr⟩ := hat
    rcases mem_keys_node.mp hk with rfl | hk | hk
    · obtain rfl : kid' = kid := Option.some.inj (hkid'.symm.trans hkid)
      cases d with
      | left => exact mem_keys_node.mpr (Or.inr (Or.inl (KeyTree.top_mem (hl.symm.trans hj))))
      | right => exact mem_keys_node.mpr (Or.inr (Or.inr (KeyTree.top_mem (hr.symm.trans hj))))
    · exact mem_keys_node.mpr (Or.inr (Or.inl (ihl htl hk)))
    · exact mem_keys_node.mpr (Or.inr (Or.inr (ihr htr hk)))

/-- What is live are the nodes that keys lead to, and their kids. -/
theorem live_spec (h : Forest s tree) {b : Nat ⊕ Nat} (hb : s.Live b) :
    match b with
    | .inl np => (trieOf s tree).Live np
    | .inr k => ∃ np, (trieOf s tree).Live np ∧ k ∈ (tree np).keys := by
  induction hb with
  | root here =>
    obtain ⟨np, hr, rfl⟩ := here
    exact ⟨[], (Trie.node_nil _ _).trans hr⟩
  | step _ next ih =>
    cases next with
    | @kids np k node hnode hk =>
      exact ⟨np, ih, KeyTree.top_mem ((h.node np node hnode).symm.trans hk)⟩
    | @child k j d kid hkid hj =>
      obtain ⟨np, hnp, hmem⟩ := ih
      exact ⟨np, hnp, child_mem (h.held np) hmem hkid hj⟩
    | @edge k np kid hkid hnp =>
      obtain ⟨m, ⟨u, hu⟩, hmem⟩ := ih
      obtain ⟨c, hc⟩ := ((orders h s).kids m k).mp (mem_postorder.mpr hmem)
      refine ⟨u ++ [c], ?_⟩
      rw [Trie.node_snoc, hu, Option.bind_some, hc, Option.bind_some]
      simpa [trieOf, edge, hkid] using hnp

theorem live_tree {t : KeyTree Nat PtrT} {parent : Ptr} (hat : TreeAt s.kids parent t)
    (htop : ∀ k, t.top = some k → s.Live (.inr k)) : ∀ k ∈ t.keys, s.Live (.inr k) := by
  induction t generalizing parent with
  | nil => exact fun k hk => absurd hk List.not_mem_nil
  | node c k v l r ihl ihr =>
    obtain ⟨⟨kid, hkid, -, hl, hr, -, -⟩, htl, htr⟩ := hat
    have hk := htop k rfl
    intro j hj
    rcases mem_keys_node.mp hj with rfl | hj | hj
    · exact hk
    · exact ihl htl (fun i hi => hk.step (.child hkid (hl.trans hi))) j hj
    · exact ihr htr (fun i hi => hk.step (.child hkid (hr.trans hi))) j hj

theorem live_kids (h : Forest s tree) (hnp : s.Live (.inl np)) (hk : k ∈ (tree np).keys) :
    s.Live (.inr k) := by
  have hlt : np < s.nodes.length := by
    by_contra hge
    rw [h.absent np (Nat.le_of_not_lt hge)] at hk
    exact absurd hk List.not_mem_nil
  exact live_tree (h.held np) (fun _ hj => hnp.step (.kids (h.get hlt) hj)) k hk

theorem live_node (h : Forest s tree) (hnp : (trieOf s tree).Live np) : s.Live (.inl np) := by
  obtain ⟨u, hu⟩ := hnp
  induction u using List.reverseRecOn generalizing np with
  | nil => exact .root ⟨np, (Trie.node_nil _ _).symm.trans hu, rfl⟩
  | append_singleton u c ih =>
    rw [Trie.node_snoc] at hu
    obtain ⟨m, hm, hu⟩ := Option.bind_eq_some_iff.mp hu
    obtain ⟨k, hk, he⟩ := Option.bind_eq_some_iff.mp hu
    have hlive := live_kids h (ih hm) (List.mem_map_of_mem (KeyTree.find_mem hk))
    obtain ⟨kid, hkid, hedge⟩ := Option.bind_eq_some_iff.mp he
    exact hlive.step (.edge hkid hedge)

/-- What do_bst_set_free goes through is what is live. -/
theorem mem_below_iff (h : Forest s tree) {d : Nat} (hdeep : (trieOf s tree).Shallow d s.root)
    (b : SetBlock) :
    b ∈ (trieOf s tree).below (release tree) d s.root ++ [SetBlock.set] ↔ s.Held b := by
  have hof : b ∈ (trieOf s tree).below (release tree) d s.root ↔
      ∃ np, (trieOf s tree).Live np ∧ (release tree).Of b np :=
    Trie.mem_below_root (orders h s) hdeep
  rw [List.mem_append, hof]
  cases b with
  | set => simp [Held]
  | node m =>
    simp only [release, SetBlock.release_node, exists_eq_right', List.mem_singleton, reduceCtorEq,
      or_false]
    exact ⟨live_node h, fun hlive => live_spec h hlive⟩
  | kid k =>
    simp only [release, SetBlock.release_kid, List.mem_singleton, reduceCtorEq, or_false,
      mem_postorder]
    refine ⟨?_, fun hlive => live_spec h hlive⟩
    rintro ⟨np, hnp, hk⟩
    exact live_kids h (live_node h hnp) hk

end

/-- What a run keeps for bst_set_free: nodes are lost only where an address is
added again, kids never. -/
def RunCounts (s : BstSet) (added : List Addr) : Prop :=
  ∃ tree key, Forest s tree ∧ (trieOf s tree).Ok key ∧ Bytes s ∧ Placed s tree ∧
    s.kids.length ≤ ADDR_LEN * added.length ∧
    (trieOf s tree).Keeps s.nodes.length ADDR_LEN (added.map Subtype.val) ∧
    (trieOf s tree).Counts s.nodes.length (added.map Subtype.val) ∧
    ∀ np c k, (trieOf s tree).kid np c = some k → (trieOf s tree).Hung ADDR_LEN k

section
variable {s : BstSet} {added : List Addr} {fuel : Nat}

theorem RunCounts.new : RunCounts bstSetNew [] := by
  obtain ⟨tree, key, hforest, htrie, -⟩ := run_inv_new
  refine ⟨tree, key, hforest, htrie, rfl, ?_, Nat.zero_le _, Trie.keeps_nil rfl,
    Trie.counts_nil rfl, ?_⟩
  · exact fun k hk => absurd hk (Nat.not_lt_zero k)
  · exact fun np c k hk => absurd (hforest.find_lt hk) (Nat.not_lt_zero k)

theorem RunCounts.add (h : RunCounts s added) {a : Addr} (hadd : AddOk s s.root a.1)
    (hfuel : ADDR_LEN * (added.length + 1) < fuel) :
    ∃ s', bstSetAdd fuel s a = .ok s' ∧ RunCounts s' (added ++ [a]) := by
  obtain ⟨tree, key, hforest, hok, hb, hplaced, hlen, hkeeps, hcounts, hhung⟩ := h
  rw [Nat.mul_add, Nat.mul_one] at hfuel
  have hfuel' : s.kids.length + a.1.length < fuel := by
    rw [a.2]
    omega
  have hv : s.Valid .root := trivial
  obtain ⟨s', tree', hrun, hforest', hb', hplaced', hext⟩ :=
    do_bst_set_add_extends a.1 hforest hv hok rfl hb hplaced hadd hfuel'
  obtain ⟨s'', tree'', hrun', hforest'', hadds, hlen'⟩ :=
    do_bst_set_add_spec a.1 hforest hv hadd hfuel'
  obtain rfl : s' = s'' := Except.ok.inj (hrun.symm.trans hrun')
  obtain rfl : tree' = tree'' :=
    funext (fun np => (hforest'.tree_eq np).symm.trans (hforest''.tree_eq np))
  obtain ⟨key', hok'⟩ := hext.ok
  refine ⟨s', hrun, tree', key', hforest', hok', hb', hplaced', ?_, ?_, ?_, ?_⟩
  · rw [a.2] at hlen'
    rw [List.length_append, List.length_singleton, Nat.mul_add, Nat.mul_one]
    omega
  · rw [List.map_append]
    exact hkeeps.extend hext a.2
  · rw [List.map_append]
    exact hcounts.extend hkeeps hext a.2
  · exact hadds.hung hok rfl (by rw [a.2]; rfl) hhung

/-- Induction on the adds, every one from a state that the ones before left. -/
theorem run_counts (adds : List Addr) (h : RunCounts s added) (hok : RunOk fuel s adds)
    (hfuel : ADDR_LEN * (added.length + adds.length) < fuel) :
    ∃ s', adds.foldlM (bstSetAdd fuel) s = .ok s' ∧ RunCounts s' (added ++ adds) := by
  induction adds generalizing s added with
  | nil => exact ⟨s, rfl, by rwa [List.append_nil]⟩
  | cons a adds ih =>
    obtain ⟨hadd, hrest⟩ := hok
    rw [List.length_cons] at hfuel
    have hfirst : ADDR_LEN * (added.length + 1) < fuel := by
      refine Nat.lt_of_le_of_lt (Nat.mul_le_mul_left _ ?_) hfuel
      omega
    obtain ⟨s₁, hrun₁, h₁⟩ := h.add hadd hfirst
    have hlen : (added ++ [a]).length + adds.length = added.length + (adds.length + 1) := by
      rw [List.length_append, List.length_singleton]
      omega
    obtain ⟨s₂, hrun₂, h₂⟩ := ih h₁ (hrest s₁ hrun₁) (by rwa [hlen])
    refine ⟨s₂, ?_, by rwa [List.append_assoc] at h₂⟩
    rw [List.foldlM_cons, hrun₁]
    exact hrun₂

/-- Every kid is held, and so is every node but those that were cut off. -/
theorem RunCounts.held (h : RunCounts s added) :
    (∀ k, s.Held (.kid k) ↔ k < s.kids.length) ∧ ∃ live : Finset Nat,
      (∀ np, np ∈ live ↔ s.Held (.node np)) ∧
      s.nodes.length = live.card + (added.length - added.toFinset.card) := by
  obtain ⟨tree, key, hforest, -, -, hplaced, -, -, ⟨live, hlive, hcard⟩, hhung⟩ := h
  have hnode : ∀ np, (trieOf s tree).Live np ↔ s.Live (.inl np) :=
    fun np => ⟨live_node hforest, fun hnp => live_spec hforest hnp⟩
  refine ⟨fun k => ⟨fun hk => ?_, fun hk => ?_⟩, live, fun np => (hlive np).trans (hnode np), ?_⟩
  · obtain ⟨np, -, hmem⟩ := live_spec hforest hk
    exact hforest.keys_lt hmem
  · obtain ⟨np, c, hkid⟩ := hplaced k hk
    obtain ⟨u, m, d, -, hm, hkm⟩ := hhung np c k hkid
    exact live_kids hforest (live_node hforest ⟨u, hm⟩)
      (List.mem_map_of_mem (KeyTree.find_mem hkm))
  · rw [Trie.card_map_to_finset Subtype.val_injective, List.length_map] at hcard
    have hle := List.toFinset_card_le added
    omega

theorem RunCounts.free (h : RunCounts s added) : ∃ h', bstSetFree s = .ok h' ∧
    h'.mem.root = none ∧ Released s.nodes.length s.kids.length s.Held added h'.freed := by
  obtain ⟨hkids, live, hlive, hcount⟩ := h.held
  obtain ⟨tree, key, hforest, hok, -, -, -, hkeeps, -⟩ := h
  have ho := orders hforest
  have hdeep : (trieOf s tree).Shallow (ADDR_LEN + 1) s.root :=
    fun u np hnp => Nat.lt_succ_of_le (hkeeps.bound u np hnp).2
  obtain ⟨hout, hnodup⟩ := Trie.below_then (ho s) hok (fun _ => SetBlock.release_set)
    (ADDR_LEN + 1) s.root
  have hstands : Stands s tree ((trieOf s tree).below (release tree) (ADDR_LEN + 1) s.root) := by
    intro np hnp
    obtain ⟨u, m, -, hm, hof⟩ := (Trie.mem_below (ho s)).mp hnp
    obtain rfl := SetBlock.release_node.mp hof
    have hlt := (hkeeps.bound u np hm).1
    refine ⟨hlt, ?_, hforest.held np, below_closed (ho s) hnp⟩
    simp [get, hforest.get hlt]
  obtain ⟨h₁, hrun₁, hg₁, hnull⟩ := do_bst_set_free_spec hforest.nodup ho (ADDR_LEN + 1) ⟨s, []⟩
    .root s.root trivial rfl hdeep hstands hnodup
  have hfreed : h₁.freed = (trieOf s tree).below (release tree) (ADDR_LEN + 1) s.root := hg₁.freed
  refine ⟨{ h₁ with freed := h₁.freed ++ [SetBlock.set] }, ?_, hnull, ?_⟩
  · rw [bstSetFree, hrun₁, ok_bind, Freeing.free_held (hfreed ▸ hout)]
  · rw [hfreed]
    exact released live trivial hkids hlive hcount hnodup (mem_below_iff hforest hdeep)

end

/-- bst_set_free after adds that meet no inner child: no block is used or freed
after it was freed, and nothing that the set holds is left. -/
theorem bst_set_free_releases (fuel : Nat) (adds : List Addr)
    (hfuel : ADDR_LEN * adds.length < fuel) (hok : RunOk fuel bstSetNew adds) :
    ∃ s h, bstSetRun fuel adds = .ok s ∧ bstSetFree s = .ok h ∧ h.mem.root = none ∧
      Released s.nodes.length s.kids.length s.Held adds h.freed := by
  have hfuel' : ADDR_LEN * (([] : List Addr).length + adds.length) < fuel := by
    rwa [List.length_nil, Nat.zero_add]
  obtain ⟨s, hrun, hcounts⟩ := run_counts adds RunCounts.new hok hfuel'
  rw [List.nil_append] at hcounts
  obtain ⟨h, hfree, hnull, hreleased⟩ := hcounts.free
  exact ⟨s, h, hrun, hfree, hnull, hreleased⟩

theorem bst_set_free_releases_ascending :
    ∃ s h, bstSetRun 17 [lowAddr 1, lowAddr 2, lowAddr 3, lowAddr 2] = .ok s ∧
      bstSetFree s = .ok h ∧ h.mem.root = none ∧ Released s.nodes.length s.kids.length s.Held
        [lowAddr 1, lowAddr 2, lowAddr 3, lowAddr 2] h.freed :=
  bst_set_free_releases 17 _ (by decide) (by decide)

end BstSet

end Mepl
