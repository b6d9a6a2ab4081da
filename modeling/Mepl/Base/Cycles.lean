import Mepl.Base.Dlist

namespace Mepl.Base

variable {A : Type}

namespace Links

/-- These cells in a circle. -/
def Circular (l : Links A) : List A → Prop
  | [] => True
  | a :: xs => l.Ring a xs

/-- Circles without a cell in common, each read from any of its cells on. -/
structure Rings (l : Links A) (cs : List (List A)) : Prop where
  circular : ∀ xs ∈ cs, l.Circular xs
  apart : cs.flatten.Nodup

section
variable {l l' : Links A} {a b p : A} {xs ys zs ws : List A} {cs cs' : List (List A)}

theorem circular_cons : l.Circular (a :: xs) ↔ l.Path a xs a ∧ (a :: xs).Nodup :=
  ⟨fun h => ⟨h.path, h.nodup⟩, fun h => ⟨h.1, h.2⟩⟩

theorem Circular.nodup (h : l.Circular xs) : xs.Nodup := by
  cases xs with
  | nil => exact List.nodup_nil
  | cons a xs => exact Ring.nodup h

/-- A circle has no first cell. -/
theorem Circular.rotate (h : l.Circular (ys ++ zs)) : l.Circular (zs ++ ys) := by
  cases ys with
  | nil => rwa [List.append_nil]
  | cons y ys =>
    cases zs with
    | nil => rwa [List.append_nil] at h
    | cons z zs =>
      obtain ⟨hpath, hnodup⟩ := circular_cons.mp h
      obtain ⟨hys, hzs⟩ := path_append.mp hpath
      have hcomm : (y :: ys ++ z :: zs).Nodup → (z :: zs ++ y :: ys).Nodup :=
        List.nodup_append_comm.mp
      have hnodup' := hcomm hnodup
      exact circular_cons.mpr ⟨path_append.mpr ⟨hzs, hys⟩, hnodup'⟩

theorem Circular.congr (h : l.Circular xs)
    (hsame : ∀ x ∈ xs, l'.next x = l.next x ∧ l'.prev x = l.prev x) : l'.Circular xs := by
  cases xs with
  | nil => trivial
  | cons a xs =>
    exact Ring.congr h (fun x hx => (hsame x hx).1) (fun x hx => (hsame x hx).2)

/-- A circle from any of its cells on. -/
theorem Circular.front (h : l.Circular xs) (hp : p ∈ xs) :
    ∃ ys zs, xs = ys ++ p :: zs ∧ l.Path p (zs ++ ys) p := by
  obtain ⟨ys, zs, rfl⟩ := List.append_of_mem hp
  have hfront : l.Circular (p :: (zs ++ ys)) := h.rotate
  exact ⟨ys, zs, rfl, (circular_cons.mp hfront).1⟩

theorem Circular.neighbours (h : l.Circular xs) (hp : p ∈ xs) : l.next p ∈ xs ∧ l.prev p ∈ xs := by
  obtain ⟨ys, zs, rfl, hpath⟩ := h.front hp
  have hnext := hpath.next_mem
  have hprev := hpath.prev_mem
  simp only [List.mem_append, List.mem_cons, List.not_mem_nil, or_false] at hnext hprev ⊢
  tauto

theorem Circular.next_prev (h : l.Circular xs) (hp : p ∈ xs) : l.next (l.prev p) = p := by
  obtain ⟨ys, zs, -, hpath⟩ := h.front hp
  exact hpath.next_prev

theorem Rings.perm (h : l.Rings cs) (hperm : cs.Perm cs') : l.Rings cs' where
  circular := fun xs hxs => h.circular xs (hperm.mem_iff.mpr hxs)
  apart := hperm.flatten.nodup_iff.mp h.apart

theorem rings_cons : l.Rings (ws :: cs) ↔
    l.Circular ws ∧ l.Rings cs ∧ ws.Disjoint cs.flatten := by
  constructor
  · intro h
    obtain ⟨-, hnodup, hout⟩ := List.nodup_append'.mp h.apart
    exact ⟨h.circular ws List.mem_cons_self,
      ⟨fun xs hxs => h.circular xs (List.mem_cons_of_mem ws hxs), hnodup⟩, hout⟩
  · rintro ⟨hws, h, hout⟩
    exact ⟨List.forall_mem_cons.mpr ⟨hws, h.circular⟩,
      List.nodup_append'.mpr ⟨hws.nodup, h.apart, hout⟩⟩

theorem Rings.neighbours (h : l.Rings cs) (hp : p ∈ cs.flatten) :
    l.next p ∈ cs.flatten ∧ l.prev p ∈ cs.flatten := by
  obtain ⟨ws, hws, hpw⟩ := List.mem_flatten.mp hp
  obtain ⟨hnext, hprev⟩ := (h.circular ws hws).neighbours hpw
  exact ⟨List.mem_flatten_of_mem hws hnext, List.mem_flatten_of_mem hws hprev⟩

/-- What changes the list of b alone changes one list. -/
theorem map_at {f : List A → List A} (hother : ∀ xs, b ∉ xs → f xs = xs) (hb : b ∈ cs.flatten)
    (hnodup : cs.flatten.Nodup) :
    ∃ ws rest, b ∈ ws ∧ cs.Perm (ws :: rest) ∧ (cs.map f).Perm (f ws :: rest) := by
  obtain ⟨ws, hws, hbw⟩ := List.mem_flatten.mp hb
  obtain ⟨pre, post, rfl⟩ := List.append_of_mem hws
  have hperm : (pre ++ ws :: post).Perm (ws :: (pre ++ post)) := List.perm_middle
  obtain ⟨-, -, hout⟩ := List.nodup_append'.mp (hperm.flatten.nodup_iff.mp hnodup)
  have hsame : (pre ++ post).map f = pre ++ post := by
    conv_rhs => rw [← List.map_id (pre ++ post)]
    apply List.map_congr_left
    intro xs hxs
    exact hother xs (fun hbx => hout hbw (List.mem_flatten_of_mem hxs hbx))
  refine ⟨ws, pre ++ post, hbw, hperm, ?_⟩
  have hmap := hperm.map f
  rwa [List.map_cons, hsame] at hmap

/-- The circle that starts at b ends with the cell before b. -/
theorem Circular.prev_last (h : l.Circular (b :: xs)) : ∃ ys, b :: xs = ys ++ [l.prev b] := by
  obtain ⟨hpath, -⟩ := circular_cons.mp h
  refine ⟨(b :: xs).dropLast, ?_⟩
  rw [hpath.prev_last, List.dropLast_append_getLast]

end

end Links

section
variable [DecidableEq A] {b p x : A} {bs xs ys zs : List A} {cs : List (List A)}

/-- xs with bs in the place of the first b. -/
def splice (b : A) (bs : List A) : List A → List A
  | [] => []
  | x :: xs => if x = b then bs ++ xs else x :: splice b bs xs

def insertAfter (b p : A) : List A → List A := splice b [b, p]

def insertBefore (b p : A) : List A → List A := splice b [p, b]

def remove (p : A) : List A → List A := splice p []

theorem splice_not_mem (h : b ∉ xs) : splice b bs xs = xs := by
  induction xs with
  | nil => rfl
  | cons x xs ih =>
    rw [List.mem_cons, not_or] at h
    rw [splice, if_neg (Ne.symm h.1), ih h.2]

theorem splice_append (h : b ∉ ys) : splice b bs (ys ++ b :: zs) = ys ++ bs ++ zs := by
  induction ys with
  | nil => simp [splice]
  | cons y ys ih =>
    rw [List.mem_cons, not_or] at h
    rw [List.cons_append, splice, if_neg (Ne.symm h.1), ih h.2]
    rfl

theorem mem_splice (h : x ∈ splice b bs xs) : x ∈ xs ∨ x ∈ bs := by
  induction xs with
  | nil => cases h
  | cons y ys ih =>
    rw [splice] at h
    split at h
    · exact (List.mem_append.mp h).symm.imp_left (List.mem_cons_of_mem y)
    · rcases List.mem_cons.mp h with rfl | h
      · exact Or.inl List.mem_cons_self
      · exact (ih h).imp_left (List.mem_cons_of_mem y)

theorem splice_perm (h : b ∈ xs) : (b :: splice b bs xs).Perm (bs ++ xs) := by
  obtain ⟨ys, zs, rfl, hout⟩ := List.eq_append_cons_of_mem h
  rw [splice_append hout, List.perm_iff_count]
  intro a
  simp only [List.count_append, List.count_cons]
  omega

/-- Over all the lists, the cells are those there were, bs for b. -/
theorem splice_flatten (h : b ∈ cs.flatten) (hnodup : cs.flatten.Nodup) :
    (b :: (cs.map (splice b bs)).flatten).Perm (bs ++ cs.flatten) := by
  obtain ⟨ws, rest, hbw, hcs, hmap⟩ := Links.map_at (fun _ => splice_not_mem) h hnodup
  have hafter : (b :: (cs.map (splice b bs)).flatten).Perm (b :: splice b bs ws ++ rest.flatten) :=
    hmap.flatten.cons b
  have hbefore : (bs ++ cs.flatten).Perm (bs ++ ws ++ rest.flatten) := by
    rw [List.append_assoc]
    exact hcs.flatten.append_left bs
  exact hafter.trans (((splice_perm hbw).append_right _).trans hbefore.symm)

end

namespace Links

section
variable [DecidableEq A] {l l' : Links A} {b p x : A} {bs ys zs : List A} {cs : List (List A)}

theorem add_after_other (hb : x ≠ b) (hp : x ≠ p) (hn : x ≠ l.next b) :
    (l.addAfter b p).next x = l.next x ∧ (l.addAfter b p).prev x = l.prev x := by
  simp [addAfter, setNext, setPrev, hb, hp, hn]

theorem rm_other (hn : x ≠ l.next p) (hm : x ≠ l.prev p) :
    (l.rm p).next x = l.next x ∧ (l.rm p).prev x = l.prev x := by
  simp [rm, setNext, setPrev, hn, hm]

theorem Circular.add_after (h : l.Circular (ys ++ b :: zs)) (hp : p ∉ ys ++ b :: zs) :
    (l.addAfter b p).Circular (ys ++ b :: p :: zs) := by
  have hring : l.Ring b (zs ++ ys) := h.rotate
  have hout : p ∉ b :: (zs ++ ys) := by
    simpa [or_comm, or_left_comm, or_assoc] using hp
  have hnew : (l.addAfter b p).Circular (b :: p :: zs ++ ys) := hring.addAfter hout
  exact hnew.rotate

theorem Circular.add_before (h : l.Circular (ys ++ b :: zs)) (hp : p ∉ ys ++ b :: zs) :
    (l.addAfter (l.prev b) p).Circular (ys ++ p :: b :: zs) := by
  have hfront : l.Circular (b :: (zs ++ ys)) := h.rotate
  obtain ⟨us, hus⟩ := hfront.prev_last
  have hout : p ∉ us ++ [l.prev b] := by
    rw [← hus]
    simpa [or_comm, or_left_comm, or_assoc] using hp
  rw [hus] at hfront
  have hnew := hfront.add_after hout
  have hend : us ++ [l.prev b, p] = (b :: (zs ++ ys)) ++ [p] := by
    rw [hus, List.append_assoc]
    rfl
  rw [hend] at hnew
  have hturn : (l.addAfter (l.prev b) p).Circular (p :: b :: zs ++ ys) := hnew.rotate
  exact hturn.rotate

theorem Circular.rm (h : l.Circular (ys ++ p :: zs)) : (l.rm p).Circular (ys ++ zs) := by
  apply Circular.rotate
  have hfront : l.Circular ([p] ++ (zs ++ ys)) := h.rotate
  have hback := hfront.rotate
  -- with another cell in front, p is in the ring of that cell
  cases hrest : zs ++ ys with
  | nil => trivial
  | cons x xs =>
    rw [hrest] at hback
    have hring : l.Ring x (xs ++ [p]) := hback
    have hout : p ∉ xs := by
      have hnodup := (List.nodup_cons.mp hring.nodup).2
      exact fun hin => (List.nodup_append'.mp hnodup).2.2 hin (List.mem_singleton_self p)
    have hrm := hring.rm (List.mem_append_right xs (List.mem_singleton_self p))
    rwa [List.erase_append_right _ hout, List.erase_cons_head, List.append_nil] at hrm

/-- A change around b: one list has bs in its place, and every other one is
as it was. -/
theorem Rings.splice (h : l.Rings cs) (hb : b ∈ cs.flatten)
    (hbs : ∀ x ∈ bs, x = b ∨ x ∉ cs.flatten)
    (hcircle : ∀ ys zs, l.Circular (ys ++ b :: zs) → (∀ x ∈ ys ++ b :: zs, x ∈ cs.flatten) →
      l'.Circular (ys ++ bs ++ zs))
    (hsame : ∀ x ∈ cs.flatten, x ≠ b → x ≠ l.next b → x ≠ l.prev b →
      l'.next x = l.next x ∧ l'.prev x = l.prev x) : l'.Rings (cs.map (Base.splice b bs)) := by
  obtain ⟨ws, rest, hbw, hcs, hmap⟩ := map_at (fun _ => splice_not_mem) hb h.apart
  obtain ⟨hws, hrest, hout⟩ := rings_cons.mp (h.perm hcs)
  obtain ⟨hnext, hprev⟩ := hws.neighbours hbw
  have hin : ∀ x, x ∈ ws ∨ x ∈ rest.flatten → x ∈ cs.flatten := by
    intro x hx
    rwa [hcs.flatten.mem_iff, List.flatten_cons, List.mem_append]
  refine Rings.perm (rings_cons.mpr ⟨?_, ⟨?_, hrest.apart⟩, ?_⟩) hmap.symm
  · obtain ⟨ys, zs, rfl, hby⟩ := List.eq_append_cons_of_mem hbw
    rw [splice_append hby]
    exact hcircle ys zs hws (fun x hx => hin x (Or.inl hx))
  · intro xs hxs
    apply (hrest.circular xs hxs).congr
    intro x hx
    have hxr := List.mem_flatten_of_mem hxs hx
    have hxw : ∀ y ∈ ws, x ≠ y := fun y hy he => hout (he ▸ hy) hxr
    exact hsame x (hin x (Or.inr hxr)) (hxw b hbw) (hxw _ hnext) (hxw _ hprev)
  · intro x hx hxr
    rcases mem_splice hx with hxw | hxb
    · exact hout hxw hxr
    · rcases hbs x hxb with rfl | hxo
      · exact hout hbw hxr
      · exact hxo (hin x (Or.inr hxr))

/-- p comes after b in the list of b. -/
theorem Rings.add_after (h : l.Rings cs) (hb : b ∈ cs.flatten) (hp : p ∉ cs.flatten) :
    (l.addAfter b p).Rings (cs.map (insertAfter b p)) := by
  apply h.splice hb
  · intro x hx
    simp only [List.mem_cons, List.not_mem_nil, or_false] at hx
    rcases hx with rfl | rfl
    · exact Or.inl rfl
    · exact Or.inr hp
  · intro ys zs hws hin
    rw [List.append_assoc]
    exact hws.add_after (fun hpw => hp (hin p hpw))
  · intro x hx hxb hxn _
    exact add_after_other hxb (fun he => hp (he ▸ hx)) hxn

/-- p comes before b in the list of b. -/
theorem Rings.add_before (h : l.Rings cs) (hb : b ∈ cs.flatten) (hp : p ∉ cs.flatten) :
    (l.addAfter (l.prev b) p).Rings (cs.map (insertBefore b p)) := by
  have hback : l.next (l.prev b) = b := by
    obtain ⟨ws, hws, hbw⟩ := List.mem_flatten.mp hb
    exact (h.circular ws hws).next_prev hbw
  apply h.splice hb
  · intro x hx
    simp only [List.mem_cons, List.not_mem_nil, or_false] at hx
    rcases hx with rfl | rfl
    · exact Or.inr hp
    · exact Or.inl rfl
  · intro ys zs hws hin
    rw [List.append_assoc]
    exact hws.add_before (fun hpw => hp (hin p hpw))
  · intro x hx hxb _ hxm
    have hxp : x ≠ p := fun he => hp (he ▸ hx)
    apply add_after_other hxm hxp
    rwa [hback]

/-- p goes out of its list, and the others keep their order. -/
theorem Rings.rm (h : l.Rings cs) (hp : p ∈ cs.flatten) : (l.rm p).Rings (cs.map (remove p)) := by
  apply h.splice hp
  · intro x hx
    cases hx
  · intro ys zs hws _
    rw [List.append_nil]
    exact hws.rm
  · intro x _ _ hxn hxm
    exact rm_other hxn hxm

/-- A new list of one cell. -/
theorem Rings.init (h : l.Rings cs) (hp : p ∉ cs.flatten) : (l.init p).Rings ([p] :: cs) := by
  refine rings_cons.mpr ⟨ring_init l p, ⟨?_, h.apart⟩, ?_⟩
  · intro xs hxs
    apply (h.circular xs hxs).congr
    intro x hx
    have hne : x ≠ p := fun he => hp (he ▸ List.mem_flatten_of_mem hxs hx)
    simp [Links.init, setNext, setPrev, hne]
  · intro x hx hxc
    exact hp (List.mem_singleton.mp hx ▸ hxc)

end

end Links

end Mepl.Base
