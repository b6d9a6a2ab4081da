import Mepl.Alloc.SlabNodes
import Mepl.Base.Cycles

namespace Mepl
open Base SlabNodes

/-- NULL, or the place of a struct list. -/
abbrev ListPtr := Option Nat

/-- struct list -/
structure ListNode where
  next : ListPtr
  prev : ListPtr
deriving DecidableEq, Repr

abbrev ListHeap := List ListNode

def listNode (l : ListHeap) : ListPtr → Res ListNode
  | none => .error .fault
  | some i => load l i

def setListNode (l : ListHeap) (p : ListPtr) (node : ListNode) : Res ListHeap :=
  match p with
  | none => .error .fault
  | some i => store l i node

def readNext (l : ListHeap) (p : ListPtr) : Res ListPtr := do return (← listNode l p).next

def readPrev (l : ListHeap) (p : ListPtr) : Res ListPtr := do return (← listNode l p).prev

/-- `p->next = q` -/
def writeNext (l : ListHeap) (p q : ListPtr) : Res ListHeap := do
  setListNode l p { (← listNode l p) with next := q }

/-- `p->prev = q` -/
def writePrev (l : ListHeap) (p q : ListPtr) : Res ListHeap := do
  setListNode l p { (← listNode l p) with prev := q }

namespace SlabV2

def listInit (l : ListHeap) (p : ListPtr) : Res ListHeap := do
  ASSERT p.isSome "p"
  let l ← writePrev l p p
  writeNext l p p

def listRm (l : ListHeap) (p : ListPtr) : Res ListHeap := do
  ASSERT p.isSome "p"
  ASSERT (← readNext l p).isSome "p->next"
  ASSERT (← readPrev l p).isSome "p->prev"
  let l ← writePrev l (← readNext l p) (← readPrev l p)
  writeNext l (← readPrev l p) (← readNext l p)

/-- Of the two assignments in one, the inner one names before->next before the
outer one assigns to it. -/
def listAddAfter (l : ListHeap) (before p : ListPtr) : Res ListHeap := do
  ASSERT p.isSome "p"
  ASSERT before.isSome "before"
  ASSERT (← readNext l before).isSome "before->next"
  let l ← writeNext l p (← readNext l before)
  let l ← writePrev l p before
  let l ← writePrev l (← readNext l before) p
  writeNext l before p

def listAddBefore (l : ListHeap) (before p : ListPtr) : Res ListHeap := do
  ASSERT p.isSome "p"
  ASSERT before.isSome "before"
  ASSERT (← readPrev l before).isSome "before->prev"
  listAddAfter l (← readPrev l before) p

end SlabV2

namespace Free

def listInit (l : ListHeap) (p : ListPtr) : Res ListHeap := do
  let l ← writeNext l p p
  writePrev l p p

def listRm (l : ListHeap) (p : ListPtr) : Res ListHeap := do
  let next ← readNext l p
  let prev ← readPrev l p
  let l ← writePrev l next prev
  writeNext l prev next

def listAddAfter (l : ListHeap) (before p : ListPtr) : Res ListHeap := do
  let next ← readNext l before
  let l ← writeNext l p next
  let l ← writePrev l p before
  let l ← writeNext l before p
  writePrev l next p

end Free

def linksOf (l : ListHeap) : Links ListPtr where
  next p := (p.bind (l[·]?)).bind ListNode.next
  prev p := (p.bind (l[·]?)).bind ListNode.prev

/-- The heap has n structs, and these links between them. -/
structure Carries (l : ListHeap) (n : Nat) (k : Links ListPtr) : Prop where
  links : linksOf l = k
  length : l.length = n

def Points (n : Nat) (p : ListPtr) : Prop := ∃ i < n, p = some i

section
variable {l : ListHeap} {n : Nat} {k : Links ListPtr} {p b : ListPtr}

theorem assert_points (hp : Points n p) (text : String) :
    ASSERT p.isSome text = .ok () := by
  obtain ⟨i, -, rfl⟩ := hp
  rfl

theorem read_next (h : Carries l n k) (hp : Points n p) : readNext l p = .ok (k.next p) := by
  obtain ⟨rfl, rfl⟩ := h
  obtain ⟨i, hi, rfl⟩ := hp
  simp [readNext, listNode, load_lt hi, linksOf, hi]

theorem read_prev (h : Carries l n k) (hp : Points n p) : readPrev l p = .ok (k.prev p) := by
  obtain ⟨rfl, rfl⟩ := h
  obtain ⟨i, hi, rfl⟩ := hp
  simp [readPrev, listNode, load_lt hi, linksOf, hi]

theorem links_set {i : Nat} (hi : i < l.length) (node : ListNode) : linksOf (l.set i node) =
    ((linksOf l).setNext (some i) node.next).setPrev (some i) node.prev := by
  have hset : ∀ (f : ListNode → ListPtr) (q : ListPtr),
      (q.bind ((l.set i node)[·]?)).bind f =
        Function.update (fun q => (q.bind (l[·]?)).bind f) (some i) (f node) q := by
    intro f q
    by_cases hq : q = some i
    · simp [hq, hi]
    · cases q with
      | none => simp
      | some j =>
        have hij : i ≠ j := fun he => hq (he ▸ rfl)
        simp [Function.update_of_ne hq, List.getElem?_set_ne hij]
  simp only [linksOf, hset, Links.setNext, Links.setPrev]

theorem write_next (h : Carries l n k) (hp : Points n p) (q : ListPtr) :
    ∃ l', writeNext l p q = .ok l' ∧ Carries l' n (k.setNext p q) := by
  obtain ⟨rfl, rfl⟩ := h
  obtain ⟨i, hi, rfl⟩ := hp
  refine ⟨l.set i { l[i] with next := q }, ?_, ?_, List.length_set⟩
  · simp [writeNext, listNode, setListNode, load_lt hi, store, hi]
  · have hprev : ((linksOf l).setNext (some i) q).prev (some i) = l[i].prev := by
      simp [linksOf, Links.setNext, hi]
    rw [links_set hi]
    dsimp only
    rw [← hprev, Links.set_prev_self]

theorem write_prev (h : Carries l n k) (hp : Points n p) (q : ListPtr) :
    ∃ l', writePrev l p q = .ok l' ∧ Carries l' n (k.setPrev p q) := by
  obtain ⟨rfl, rfl⟩ := h
  obtain ⟨i, hi, rfl⟩ := hp
  refine ⟨l.set i { l[i] with prev := q }, ?_, ?_, List.length_set⟩
  · simp [writePrev, listNode, setListNode, load_lt hi, store, hi]
  · have hnext : (linksOf l).next (some i) = l[i].next := by
      simp [linksOf, hi]
    rw [links_set hi]
    dsimp only
    rw [← hnext, Links.set_next_self]

theorem slab_list_rm (h : Carries l n k) (hp : Points n p) (hnext : Points n (k.next p))
    (hprev : Points n (k.prev p)) :
    ∃ l', SlabV2.listRm l p = .ok l' ∧ Carries l' n (k.rm p) := by
  obtain ⟨l₁, hrun₁, h₁⟩ := write_prev h hnext (k.prev p)
  obtain ⟨l₂, hrun₂, h₂⟩ := write_next h₁ hprev (k.next p)
  refine ⟨l₂, ?_, h₂⟩
  -- the second read of p->prev is of what it was, even where p is its own neighbour
  have hsame : (k.setPrev (k.next p) (k.prev p)).prev p = k.prev p := by
    by_cases hself : p = k.next p
    · simp [Links.setPrev, ← hself]
    · simp [Links.setPrev, hself]
  have hread₁ := read_prev h₁ hp
  rw [hsame] at hread₁
  have hread₂ := read_next h₁ hp
  rw [show (k.setPrev (k.next p) (k.prev p)).next p = k.next p from rfl] at hread₂
  simp [SlabV2.listRm, assert_points hp, assert_points hnext, assert_points hprev, read_next h hp,
    read_prev h hp, hrun₁, hread₁, hread₂, hrun₂]

theorem free_list_rm (h : Carries l n k) (hp : Points n p) (hnext : Points n (k.next p))
    (hprev : Points n (k.prev p)) :
    ∃ l', Free.listRm l p = .ok l' ∧ Carries l' n (k.rm p) := by
  obtain ⟨l₁, hrun₁, h₁⟩ := write_prev h hnext (k.prev p)
  obtain ⟨l₂, hrun₂, h₂⟩ := write_next h₁ hprev (k.next p)
  refine ⟨l₂, ?_, h₂⟩
  simp [Free.listRm, read_next h hp, read_prev h hp, hrun₁, hrun₂]

theorem slab_list_add_after (h : Carries l n k) (hb : Points n b) (hp : Points n p)
    (hnext : Points n (k.next b)) :
    ∃ l', SlabV2.listAddAfter l b p = .ok l' ∧ Carries l' n (k.addAfter b p) := by
  obtain ⟨l₁, hrun₁, h₁⟩ := write_next h hp (k.next b)
  obtain ⟨l₂, hrun₂, h₂⟩ := write_prev h₁ hp b
  obtain ⟨l₃, hrun₃, h₃⟩ := write_prev h₂ hnext p
  obtain ⟨l₄, hrun₄, h₄⟩ := write_next h₃ hb p
  refine ⟨l₄, ?_, h₄⟩
  have hsame : (k.setNext p (k.next b)).next b = k.next b := by
    by_cases hself : b = p
    · simp [Links.setNext, hself]
    · simp [Links.setNext, hself]
  have hread : readNext l₂ b = .ok (k.next b) := (read_next h₂ hb).trans (congrArg _ hsame)
  simp [SlabV2.listAddAfter, assert_points hp, assert_points hb, assert_points hnext,
    read_next h hb, hrun₁, hrun₂, hread, hrun₃, hrun₄]

theorem free_list_add_after (h : Carries l n k) (hb : Points n b) (hp : Points n p)
    (hnext : Points n (k.next b)) :
    ∃ l', Free.listAddAfter l b p = .ok l' ∧ Carries l' n (k.addAfter b p) := by
  obtain ⟨l₁, hrun₁, h₁⟩ := write_next h hp (k.next b)
  obtain ⟨l₂, hrun₂, h₂⟩ := write_prev h₁ hp b
  obtain ⟨l₃, hrun₃, h₃⟩ := write_next h₂ hb p
  obtain ⟨l₄, hrun₄, h₄⟩ := write_prev h₃ hnext p
  refine ⟨l₄, ?_, h₄⟩
  simp [Free.listAddAfter, read_next h hb, hrun₁, hrun₂, hrun₃, hrun₄]

theorem slab_list_init (h : Carries l n k) (hp : Points n p) :
    ∃ l', SlabV2.listInit l p = .ok l' ∧ Carries l' n (k.init p) := by
  obtain ⟨l₁, hrun₁, h₁⟩ := write_prev h hp p
  obtain ⟨l₂, hrun₂, h₂⟩ := write_next h₁ hp p
  exact ⟨l₂, by simp [SlabV2.listInit, assert_points hp, hrun₁, hrun₂], h₂⟩

theorem free_list_init (h : Carries l n k) (hp : Points n p) :
    ∃ l', Free.listInit l p = .ok l' ∧ Carries l' n (k.init p) := by
  obtain ⟨l₁, hrun₁, h₁⟩ := write_next h hp p
  obtain ⟨l₂, hrun₂, h₂⟩ := write_prev h₁ hp p
  exact ⟨l₂, by simp [Free.listInit, hrun₁, hrun₂], h₂⟩

end

/-- The heap holds these lists, each read from any one of its structs on. -/
structure HoldsLists (l : ListHeap) (cs : List (List ListPtr)) : Prop where
  rings : (linksOf l).Rings cs
  notNull : none ∉ cs.flatten

/-- op makes p a list of its own. -/
def Starts (op : ListHeap → ListPtr → Res ListHeap) : Prop :=
  ∀ l cs p, HoldsLists l cs → p ∉ cs.flatten → Points l.length p →
    ∃ l', op l p = .ok l' ∧ HoldsLists l' ([p] :: cs)

/-- op puts p where place says, whichever list b is on, and leaves the other
lists alone. -/
def Inserts (op : ListHeap → ListPtr → ListPtr → Res ListHeap)
    (place : ListPtr → ListPtr → List ListPtr → List ListPtr) : Prop :=
  ∀ l cs b p, HoldsLists l cs → b ∈ cs.flatten → p ∉ cs.flatten → Points l.length p →
    ∃ l', op l b p = .ok l' ∧ HoldsLists l' (cs.map (place b p))

/-- op takes p out of the list it is on. -/
def Removes (op : ListHeap → ListPtr → Res ListHeap) : Prop :=
  ∀ l cs p, HoldsLists l cs → p ∈ cs.flatten →
    ∃ l', op l p = .ok l' ∧ l'.length = l.length ∧ HoldsLists l' (cs.map (remove p))

/-- rm and then add take p to the place after b, in its own list or another. -/
def Moves (rm : ListHeap → ListPtr → Res ListHeap)
    (add : ListHeap → ListPtr → ListPtr → Res ListHeap) : Prop :=
  ∀ l cs b p, HoldsLists l cs → p ∈ cs.flatten → b ∈ cs.flatten → b ≠ p →
    ∃ l₁ l₂, rm l p = .ok l₁ ∧ add l₁ b p = .ok l₂ ∧
      HoldsLists l₂ ((cs.map (remove p)).map (insertAfter b p)) ∧
      ((cs.map (remove p)).map (insertAfter b p)).flatten.Perm cs.flatten

section
variable {l : ListHeap} {cs : List (List ListPtr)} {p b : ListPtr}

theorem HoldsLists.points (h : HoldsLists l cs) (hp : p ∈ cs.flatten) : Points l.length p := by
  have hnext := (h.rings.neighbours hp).1
  cases p with
  | none => exact absurd hp h.notNull
  | some i =>
    refine ⟨i, ?_, rfl⟩
    by_contra hi
    have hnull : (linksOf l).next (some i) = none := by
      simp [linksOf, hi]
    exact h.notNull (hnull ▸ hnext)

theorem HoldsLists.around (h : HoldsLists l cs) (hp : p ∈ cs.flatten) :
    Points l.length p ∧ Points l.length ((linksOf l).next p) ∧
      Points l.length ((linksOf l).prev p) := by
  obtain ⟨hnext, hprev⟩ := h.rings.neighbours hp
  exact ⟨h.points hp, h.points hnext, h.points hprev⟩

/-- What is made of the lists has no NULL in it either. -/
theorem not_null_splice {bs : List ListPtr} (h : none ∉ cs.flatten) (hbs : none ∉ bs) :
    none ∉ (cs.map (splice b bs)).flatten := by
  intro hnull
  obtain ⟨xs, hxs, hin⟩ := List.mem_flatten.mp hnull
  obtain ⟨ws, hws, rfl⟩ := List.mem_map.mp hxs
  rcases mem_splice hin with hin | hin
  · exact h (List.mem_flatten_of_mem hws hin)
  · exact hbs hin

theorem Points.not_null {n : Nat} (hp : Points n p) : p ≠ none := by
  obtain ⟨i, -, rfl⟩ := hp
  exact Option.some_ne_none i

theorem starts_of {op : ListHeap → ListPtr → Res ListHeap}
    (hop : ∀ {l n k p}, Carries l n k → Points n p →
      ∃ l', op l p = .ok l' ∧ Carries l' n (k.init p)) : Starts op := by
  intro l cs p h hp hpp
  obtain ⟨l', hrun, hlinks, -⟩ := hop ⟨rfl, rfl⟩ hpp
  refine ⟨l', hrun, hlinks ▸ h.rings.init hp, ?_⟩
  simp [h.notNull, hpp.not_null.symm]

theorem removes_of {op : ListHeap → ListPtr → Res ListHeap}
    (hop : ∀ {l n k p}, Carries l n k → Points n p → Points n (k.next p) → Points n (k.prev p) →
      ∃ l', op l p = .ok l' ∧ Carries l' n (k.rm p)) : Removes op := by
  intro l cs p h hp
  obtain ⟨hpp, hnext, hprev⟩ := h.around hp
  obtain ⟨l', hrun, hlinks, hlen⟩ := hop ⟨rfl, rfl⟩ hpp hnext hprev
  exact ⟨l', hrun, hlen, hlinks ▸ h.rings.rm hp, not_null_splice h.notNull List.not_mem_nil⟩

theorem inserts_after_of {op : ListHeap → ListPtr → ListPtr → Res ListHeap}
    (hop : ∀ {l n k b p}, Carries l n k → Points n b → Points n p → Points n (k.next b) →
      ∃ l', op l b p = .ok l' ∧ Carries l' n (k.addAfter b p)) : Inserts op insertAfter := by
  intro l cs b p h hb hp hpp
  obtain ⟨hbp, hnext, -⟩ := h.around hb
  obtain ⟨l', hrun, hlinks, -⟩ := hop ⟨rfl, rfl⟩ hbp hpp hnext
  have hnull : none ∉ [b, p] := by simp [hbp.not_null.symm, hpp.not_null.symm]
  exact ⟨l', hrun, hlinks ▸ h.rings.add_after hb hp, not_null_splice h.notNull hnull⟩

/-- list_add_before(b) is list_add_after(b->prev). -/
theorem slab_list_add_before : Inserts SlabV2.listAddBefore insertBefore := by
  intro l cs b p h hb hp hpp
  obtain ⟨hbp, -, hprev⟩ := h.around hb
  obtain ⟨-, hback, -⟩ := h.around (h.rings.neighbours hb).2
  obtain ⟨l', hrun, hlinks, -⟩ := slab_list_add_after ⟨rfl, rfl⟩ hprev hpp hback
  have hnull : none ∉ [p, b] := by simp [hbp.not_null.symm, hpp.not_null.symm]
  refine ⟨l', ?_, hlinks ▸ h.rings.add_before hb hp, not_null_splice h.notNull hnull⟩
  simp [SlabV2.listAddBefore, assert_points hpp, assert_points hbp, assert_points hprev,
    read_prev ⟨rfl, rfl⟩ hbp, hrun]

theorem moves_of {rm : ListHeap → ListPtr → Res ListHeap}
    {add : ListHeap → ListPtr → ListPtr → Res ListHeap} (hrm : Removes rm)
    (hadd : Inserts add insertAfter) : Moves rm add := by
  intro l cs b p h hp hb hne
  obtain ⟨l₁, hrun₁, hlen, h₁⟩ := hrm l cs p h hp
  have hout : (p :: (cs.map (remove p)).flatten).Perm cs.flatten :=
    splice_flatten hp h.rings.apart
  have hp₁ := (List.nodup_cons.mp (hout.nodup_iff.mpr h.rings.apart)).1
  have hb₁ : b ∈ (cs.map (remove p)).flatten :=
    List.mem_of_ne_of_mem hne (hout.mem_iff.mpr hb)
  obtain ⟨l₂, hrun₂, h₂⟩ := hadd l₁ _ b p h₁ hb₁ hp₁ (hlen ▸ h.points hp)
  have hin : (b :: ((cs.map (remove p)).map (insertAfter b p)).flatten).Perm
      (b :: p :: (cs.map (remove p)).flatten) := splice_flatten hb₁ h₁.rings.apart
  exact ⟨l₁, l₂, hrun₁, hrun₂, h₂, hin.cons_inv.trans hout⟩

end

/-- The operations of both list.h are those on lists. -/
theorem list_refines :
    (Starts SlabV2.listInit ∧ Inserts SlabV2.listAddAfter insertAfter ∧
      Inserts SlabV2.listAddBefore insertBefore ∧ Removes SlabV2.listRm ∧
      Moves SlabV2.listRm SlabV2.listAddAfter) ∧
    Starts Free.listInit ∧ Inserts Free.listAddAfter insertAfter ∧ Removes Free.listRm ∧
      Moves Free.listRm Free.listAddAfter := by
  have hslab := removes_of slab_list_rm
  have hslab' := inserts_after_of slab_list_add_after
  have hfree := removes_of free_list_rm
  have hfree' := inserts_after_of free_list_add_after
  exact ⟨⟨starts_of slab_list_init, hslab', slab_list_add_before, hslab, moves_of hslab hslab'⟩,
    starts_of free_list_init, hfree', hfree, moves_of hfree hfree'⟩

/-- A list of two structs, one of one struct, and a struct that is on no list yet. -/
def twoLists : ListHeap :=
  [⟨some 1, some 1⟩, ⟨some 0, some 0⟩, ⟨some 2, some 2⟩, ⟨none, none⟩]

theorem two_lists_held : HoldsLists twoLists [[some 0, some 1], [some 2]] where
  rings := by
    refine ⟨fun xs hxs => ?_, by decide⟩
    rcases List.mem_pair.mp hxs with rfl | rfl
    · exact Links.circular_cons.mpr ⟨⟨rfl, rfl, rfl, rfl⟩, by decide⟩
    · exact Links.circular_cons.mpr ⟨⟨rfl, rfl⟩, by decide⟩
  notNull := by decide

theorem list_refines_two :
    (∃ l, Free.listInit twoLists (some 3) = .ok l ∧
      HoldsLists l [[some 3], [some 0, some 1], [some 2]]) ∧
    (∃ l, SlabV2.listAddBefore twoLists (some 0) (some 3) = .ok l ∧
      HoldsLists l [[some 3, some 0, some 1], [some 2]]) ∧
    (∃ l, Free.listRm twoLists (some 1) = .ok l ∧ HoldsLists l [[some 0], [some 2]]) ∧
    ∃ l₁ l₂, SlabV2.listRm twoLists (some 1) = .ok l₁ ∧
      SlabV2.listAddAfter l₁ (some 2) (some 1) = .ok l₂ ∧
      HoldsLists l₂ [[some 0], [some 2, some 1]] := by
  obtain ⟨⟨-, -, hbefore, -, hmoves⟩, hinit, -, hrm, -⟩ := list_refines
  have hfree : Points twoLists.length (some 3) := ⟨3, by decide, rfl⟩
  refine ⟨hinit _ _ _ two_lists_held (by decide) hfree,
    hbefore _ _ _ _ two_lists_held (by decide) (by decide) hfree, ?_, ?_⟩
  · obtain ⟨l, hrun, -, hheld⟩ := hrm _ _ (some 1) two_lists_held (by decide)
    exact ⟨l, hrun, hheld⟩
  · obtain ⟨l₁, l₂, hrun₁, hrun₂, hheld, -⟩ :=
      hmoves _ _ (some 2) (some 1) two_lists_held (by decide) (by decide) (by decide)
    exact ⟨l₁, l₂, hrun₁, hrun₂, hheld⟩

end Mepl
