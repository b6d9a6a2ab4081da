import Mepl.Ptrset.Dynarr

namespace Mepl.DynarrSet

variable {s : DynarrSet} {npp last : NodeSlot} {kp : Ptr} {np kids : Nat} {c d : PtrT}
  {cs ds : List PtrT} {e : Ptr} {a b : Addr} {n : Nat}

/-- From the slot npp on, one kid a node under the chunks cs, down to the slot
last of the node that ends them. -/
inductive Path (s : DynarrSet) : NodeSlot → List PtrT → NodeSlot → Prop
  | nil {npp : NodeSlot} : Path s npp [] npp
  | cons {npp last : NodeSlot} {np kids : Nat} {c : PtrT} {e : Ptr} {cs : List PtrT}
      (node : s.readNode npp = .ok (some np)) (one : s.nodes[np]? = some ⟨some kids, 1, 1⟩)
      (kid : s.arrays[kids]? = some (some [⟨e, c⟩])) (rest : Path s (.edge kids 0) cs last) :
      Path s npp (c :: cs) last

theorem array_some {x : List Kid} (h : s.arrays[kids]? = some (some x)) :
    s.array kids = .ok x := by
  rw [array, load_some h, ok_bind]
  rfl

/-- A chunk that the only kid is not for is found past the end of the array. -/
theorem kid_find_one (hnode : s.nodes[np]? = some ⟨some kids, 1, 1⟩)
    (hkid : s.arrays[kids]? = some (some [⟨e, c⟩])) (d : PtrT) :
    kidFind s np d = .ok (some (kids, if c = d then 0 else 1)) := by
  rw [kidFind, load_some hnode, ok_bind]
  simp only [array_some hkid, ok_bind, kidFindLoop, load, List.getElem?_cons_zero]
  by_cases hc : c = d <;> simp [hc]

theorem read_end (hkid : s.arrays[kids]? = some (some [⟨e, c⟩])) :
    s.readNode (.edge kids 1) = .error .fault := by
  rw [readNode, array_some hkid]
  rfl

theorem write_end {t : DynarrSet} (hkid : t.arrays[kids]? = some (some [⟨e, c⟩])) (p : Ptr) :
    t.writeNode (.edge kids 1) p = .error .fault := by
  rw [writeNode, array_some hkid]
  rfl

/-- dynarr_set_has answers for the chunks of the path only. -/
theorem Path.has (h : Path s npp cs last) (hread : s.readNode npp = .ok kp)
    (hlen : ds.length = cs.length) :
    doDynarrSetHas s kp ds = if ds = cs then .ok true else .error .fault := by
  induction h generalizing kp ds with
  | nil =>
    obtain rfl := List.eq_nil_of_length_eq_zero hlen
    cases kp <;> rfl
  | @cons npp last np kids c e cs node one kid rest ih =>
    cases ds with
    | nil => cases hlen
    | cons d ds =>
      rw [node] at hread
      cases hread
      have hnext : s.readNode (.edge kids 0) = .ok e := by
        rw [readNode, array_some kid]
        rfl
      rw [doDynarrSetHas, kid_find_one one kid d, ok_bind]
      simp only [array_some kid, ok_bind]
      by_cases hd : c = d
      · subst hd
        have hrest := ih hnext (Nat.succ.inj hlen)
        simp only [↓reduceIte, load, List.getElem?_cons_zero, ok_bind, hrest, List.cons.injEq,
          true_and]
      · simp [hd, load, Ne.symm hd]

/-- An add of the chunks of the path makes a new node at its end. -/
theorem Path.add (h : Path s npp cs last) : doDynarrSetAdd s npp cs = s.setNew last := by
  induction h with
  | nil => rfl
  | @cons npp last np kids c e cs node one kid rest ih =>
    rw [doDynarrSetAdd, node, ok_bind]
    simp only [Option.isNone_some, Bool.false_eq_true, ↓reduceIte, pure_ok, ok_bind, node,
      kid_find_one one kid, ih]

/-- An add of other chunks writes past the end of an array. -/
theorem Path.add_other (h : Path s npp cs last) (hlen : ds.length = cs.length) (hne : ds ≠ cs) :
    doDynarrSetAdd s npp ds = .error .fault := by
  induction h generalizing ds with
  | nil => exact absurd (List.eq_nil_of_length_eq_zero hlen) hne
  | @cons npp last np kids c e cs node one kid rest ih =>
    cases ds with
    | nil => cases hlen
    | cons d ds =>
      rw [doDynarrSetAdd, node, ok_bind]
      simp only [Option.isNone_some, Bool.false_eq_true, ↓reduceIte, pure_ok, ok_bind, node,
        kid_find_one one kid]
      by_cases hd : c = d
      · subst hd
        rw [if_pos rfl]
        exact ih (Nat.succ.inj hlen) (fun he => hne (he ▸ rfl))
      · rw [if_neg hd]
        cases ds with
        | nil => exact write_end (by exact kid) _
        | cons d' ds => rw [doDynarrSetAdd, read_end kid, error_bind]

/-- The first kid of a node gets an array of its own. -/
theorem push_first (hnode : s.nodes[np]? = some ⟨none, 0, 0⟩) (c : PtrT) :
    nodePush s np c = .ok { s with
      psBytes := s.psBytes + sizeofKid
      nodes := s.nodes.set np ⟨some s.arrays.length, 1, 1⟩
      arrays := s.arrays ++ [some [⟨none, c⟩]] } := by
  obtain ⟨hlt, hget⟩ := List.getElem?_eq_some_iff.mp hnode
  simp [nodePush, nodeGrow, load, store, hlt, hget, array]

/-- A level of an add that comes to an empty slot. -/
theorem add_level {t : DynarrSet} (np : Nat) (hempty : s.readNode npp = .ok none)
    (hnew : s.setNew npp = .ok t) (hread : t.readNode npp = .ok (some np))
    (hnode : t.nodes[np]? = some ⟨none, 0, 0⟩) :
    doDynarrSetAdd s npp (c :: cs) = doDynarrSetAdd { t with
      psBytes := t.psBytes + sizeofKid
      nodes := t.nodes.set np ⟨some t.arrays.length, 1, 1⟩
      arrays := t.arrays ++ [some [⟨none, c⟩]] } (.edge t.arrays.length 0) cs := by
  obtain ⟨hlt, -⟩ := List.getElem?_eq_some_iff.mp hnode
  have hkid : kidFind t np c = .ok none := by
    rw [kidFind, load_some hnode, ok_bind]
    rfl
  rw [doDynarrSetAdd, hempty, ok_bind]
  simp only [Option.isNone_none, ↓reduceIte, hnew, ok_bind, hread, hkid, push_first hnode, load]
  simp [hlt]

/-- The set after n adds of the address a. -/
def pathSet (a : Addr) (n : Nat) : DynarrSet where
  psBytes := sizeofDynarrSet + sizeofNode * (ADDR_LEN + n) + sizeofKid * ADDR_LEN
  root := some 0
  nodes := [⟨some 0, 1, 1⟩, ⟨some 1, 1, 1⟩, ⟨some 2, 1, 1⟩, ⟨some 3, 1, 1⟩] ++
    List.replicate n ⟨none, 0, 0⟩
  arrays := List.zipWith (fun np c => some [⟨some np, c⟩]) [1, 2, 3, n + 3] a.1

theorem path_set (a : Addr) (n : Nat) : Path (pathSet a n) .root a.1 (.edge 3 0) := by
  obtain ⟨cs, hcs⟩ := a
  match cs, hcs with
  | [c0, c1, c2, c3], hcs =>
    exact .cons rfl rfl rfl (.cons rfl rfl rfl (.cons rfl rfl rfl (.cons rfl rfl rfl .nil)))

theorem add_first (a : Addr) : dynarrSetAdd dynarrSetNew a = .ok (pathSet a 1) := by
  obtain ⟨cs, hcs⟩ := a
  match cs, hcs with
  | [c0, c1, c2, c3], hcs =>
    rw [dynarrSetAdd, add_level 0 rfl rfl rfl rfl, add_level 1 rfl rfl rfl rfl,
      add_level 2 rfl rfl rfl rfl, add_level 3 rfl rfl rfl rfl]
    rfl

theorem add_again (a : Addr) (n : Nat) :
    dynarrSetAdd (pathSet a n) a = .ok (pathSet a (n + 1)) := by
  rw [dynarrSetAdd, (path_set a n).add]
  obtain ⟨cs, hcs⟩ := a
  match cs, hcs with
  | [c0, c1, c2, c3], hcs =>
    simp [setNew, writeNode, array, load, store, pathSet, List.replicate_succ', sizeofDynarrSet,
      sizeofNode, ADDR_LEN]
    omega

theorem add_other (hne : b ≠ a) : dynarrSetAdd (pathSet a n) b = .error .fault :=
  (path_set a n).add_other (b.2.trans a.2.symm) (fun he => hne (Subtype.ext he))

theorem has_path (a b : Addr) (n : Nat) :
    dynarrSetHas (pathSet a n) b = if b = a then .ok true else .error .fault := by
  have hread : (pathSet a n).readNode .root = .ok (pathSet a n).root := rfl
  rw [dynarrSetHas, (path_set a n).has hread (b.2.trans a.2.symm)]
  simp only [Subtype.ext_iff]

/-- Once an address has been added, no other is asked for. -/
def OneAddr : List SetOp → Prop
  | [] => True
  | .has _ :: ops => OneAddr ops
  | .add a :: ops => ∀ op ∈ ops, op.addr = a

/-- Calls for the address that was added get their answers. -/
theorem calls_path {ops : List SetOp} {added : List Addr} (ha : a ∈ added)
    (hops : ∀ op ∈ ops, op.addr = a) :
    ∃ m, dynarrSetCalls (pathSet a n) ops = .ok (pathSet a m, answers added ops) := by
  induction ops generalizing n added with
  | nil => exact ⟨n, rfl⟩
  | cons op ops ih =>
    have hrest : ∀ op ∈ ops, op.addr = a := fun op hop => hops op (List.mem_cons_of_mem _ hop)
    cases op with
    | add b =>
      obtain rfl : b = a := hops (.add b) List.mem_cons_self
      obtain ⟨m, hrun⟩ := ih (n := n + 1) (List.mem_append_left [b] ha) hrest
      refine ⟨m, ?_⟩
      rw [dynarrSetCalls, add_again, ok_bind, hrun]
      rfl
    | has b =>
      obtain rfl : b = a := hops (.has b) List.mem_cons_self
      obtain ⟨m, hrun⟩ := ih (n := n) ha hrest
      refine ⟨m, ?_⟩
      rw [dynarrSetCalls, has_path, if_pos rfl]
      simp only [ok_bind, hrun, pure_ok, answers, ha, decide_true]

/-- The first call for another address leaves its array. -/
theorem calls_other {ops : List SetOp} (hops : ¬ ∀ op ∈ ops, op.addr = a) :
    dynarrSetCalls (pathSet a n) ops = .error .fault := by
  induction ops generalizing n with
  | nil => exact absurd (fun _ hop => nomatch hop) hops
  | cons op ops ih =>
    have hrest : op.addr = a → ¬ ∀ op ∈ ops, op.addr = a := by
      intro hop hall
      apply hops
      intro o ho
      rcases List.mem_cons.mp ho with rfl | ho
      · exact hop
      · exact hall o ho
    cases op with
    | add b =>
      rw [dynarrSetCalls]
      by_cases hb : b = a
      · subst hb
        rw [add_again, ok_bind]
        exact ih (hrest rfl)
      · rw [add_other hb, error_bind]
    | has b =>
      rw [dynarrSetCalls, has_path]
      by_cases hb : b = a
      · rw [if_pos hb, ok_bind, ih (hrest hb), error_bind]
      · rw [if_neg hb, error_bind]

/-- Before an address is added, every answer is no. -/
theorem calls_new (ops : List SetOp) : (OneAddr ops → ∃ s,
      dynarrSetCalls dynarrSetNew ops = .ok (s, answers [] ops) ∧
      ∀ node ∈ s.nodes, node.len = node.cap) ∧
    (¬ OneAddr ops → dynarrSetCalls dynarrSetNew ops = .error .fault) := by
  induction ops with
  | nil =>
    have hnodes : ∀ node ∈ dynarrSetNew.nodes, node.len = node.cap := by simp [dynarrSetNew]
    exact ⟨fun _ => ⟨dynarrSetNew, rfl, hnodes⟩, fun hn => absurd trivial hn⟩
  | cons op ops ih =>
    cases op with
    | add a =>
      rw [OneAddr, dynarrSetCalls, add_first, ok_bind]
      constructor
      · intro hops
        obtain ⟨m, hrun⟩ := calls_path (List.mem_singleton_self a) hops
        refine ⟨_, hrun, fun node hnode => ?_⟩
        rcases List.mem_append.mp hnode with hnode | hnode
        · simp at hnode
          rcases hnode with rfl | rfl | rfl | rfl <;> rfl
        · rw [List.eq_of_mem_replicate hnode]
      · exact calls_other
    | has a =>
      have hhas : dynarrSetHas dynarrSetNew a = .ok false := by
        obtain ⟨cs, hcs⟩ := a
        cases cs with
        | nil => cases hcs
        | cons c cs => rfl
      rw [OneAddr, dynarrSetCalls, hhas, ok_bind]
      constructor
      · intro hops
        obtain ⟨s, hrun, hnodes⟩ := ih.1 hops
        refine ⟨s, ?_, hnodes⟩
        rw [hrun]
        rfl
      · intro hops
        rw [ih.2 hops, error_bind]

/-- The calls of a run stay inside the arrays and get the answers of a set of
addresses exactly when they ask for one address only, once one is added. The
arrays have no slot past len, so that inside the array is below len. -/
theorem dynarr_set_iff (ops : List SetOp) : (∃ s, dynarrSetRun ops = .ok (s, answers [] ops) ∧
    ∀ node ∈ s.nodes, node.len = node.cap) ↔ OneAddr ops := by
  constructor
  · intro hin
    obtain ⟨s, hrun, -⟩ := hin
    by_contra hn
    rw [dynarrSetRun, (calls_new ops).2 hn] at hrun
    cases hrun
  · exact (calls_new ops).1

/-- The second address ends past the only kid of the first node. -/
theorem dynarr_set_second_addr :
    dynarrSetRun [.add ⟨[0, 0, 0, 0], rfl⟩, .add ⟨[1, 0, 0, 0], rfl⟩] = .error .fault := by
  decide

end Mepl.DynarrSet
